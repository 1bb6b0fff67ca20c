import Resolvo.Model.BundleBox
import Resolvo.Correctness.QueueSync

/-!
# `Correctness.QueueRun` — every run of the decide queue

A run of the queue interleaves registrations, hot marks and changes of the trail with synchronisations and
selections. The queue is right for the assignment of the latest synchronisation in every state of a run;
where the trail did not change since, this says that every eligible clause is queued, that the hot queue is
the hot part of the queue, and that the cache agrees with the assignment.
-/

set_option linter.unusedSectionVars false

namespace Resolvo

open Sat

namespace DecideQueue

variable {N S F : Type} [DecidableEq N] [DecidableEq S]

/-- A clause the next decision can be taken from: its parent is true, its condition holds and none of its
    candidates is true. -/
def Eligible (sortedCandidates : IndexMap Requirement (List (List VariableId)))
    (value : VariableId → Option Bool) (disjunctions : List Disjunction) (c : TrackedClause) : Prop :=
  Awake value disjunctions c ∧
    ∀ candidate ∈ candidatesOf sortedCandidates c.requirement, value candidate ≠ some true

/-! ## Selecting in a synchronised queue -/

section Select

variable {P : DependencyProvider N S} {A : ActivityParams F} {disjunctions : List Disjunction}
  {sortedCandidates : IndexMap Requirement (List (List VariableId))}
  {value : VariableId → Option Bool} {nameActivity : IndexMap N F} {maxActivity : F}
  {q q' : DecideQueue N}

/-- The queue is right for the current assignment. -/
structure Fresh (P : DependencyProvider N S)
    (sortedCandidates : IndexMap Requirement (List (List VariableId)))
    (disjunctions : List Disjunction) (value : VariableId → Option Bool) (q : DecideQueue N) :
    Prop where
  indexed : Indexed P disjunctions (Marked P q) q
  aligned : ∀ (id : TrackedClauseId) c, q.clauses[id]? = some c → Aligned P sortedCandidates c.requirement
  alignedEntry : ∀ r, (q.entryOf r).occurrencesRegistered = true → Aligned P sortedCandidates r
  cached : Cached P sortedCandidates value value [] q
  covered : Covered value disjunctions (fun _ => True) q

/-- Two queues that differ at most in what a selection changes. -/
structure SameIndex (q q' : DecideQueue N) : Prop where
  clauses : q'.clauses = q.clauses
  parentPositions : q'.parentPositions = q.parentPositions
  clausesByParent : q'.clausesByParent = q.clausesByParent
  hotNames : q'.hotNames = q.hotNames
  clausesByName : q'.clausesByName = q.clausesByName
  clausesByConditionVariable : q'.clausesByConditionVariable = q.clausesByConditionVariable
  clausesByRequirement : q'.clausesByRequirement = q.clausesByRequirement
  mirror : q'.mirror = q.mirror
  hotOnly : q'.hotOnly = q.hotOnly

theorem SameIndex.refl (q : DecideQueue N) : SameIndex q q := ⟨rfl, rfl, rfl, rfl, rfl, rfl, rfl, rfl, rfl⟩

theorem SameIndex.trans {q'' : DecideQueue N} (h : SameIndex q q') (h' : SameIndex q' q'') :
    SameIndex q q'' :=
  ⟨h'.1.trans h.1, h'.2.trans h.2, h'.3.trans h.3, h'.4.trans h.4, h'.5.trans h.5, h'.6.trans h.6,
    h'.7.trans h.7, h'.8.trans h.8, h'.9.trans h.9⟩

/-- The frontier of a clause recomputed from the assignment, if the clause is eligible. -/
def referenceFrontier (P : DependencyProvider N S)
    (sortedCandidates : IndexMap Requirement (List (List VariableId)))
    (disjunctions : List Disjunction) (value : VariableId → Option Bool) (c : TrackedClause) :
    Option (VariableId × VersionSetId × Nat) :=
  if value c.parent ≠ some true then none
  else if !conditionHolds value disjunctions c.condition then none
  else
    match walk value (walkOrder (c.requirement.versionSets P)
        (sortedCandidates.getD c.requirement [])) none with
    | some (.frontier candidate vs count) => some (candidate, vs, count)
    | _ => none

theorem conditionHolds_iff {condition : Option DisjunctionId} :
    conditionHolds value disjunctions condition = true ↔
      ∀ l ∈ conditionLiterals disjunctions condition, l.eval value = some false := by
  rw [conditionHolds, List.all_eq_true]
  exact forall₂_congr fun l _ => decide_eq_true_iff

/-- A requirement is walked in the order of its candidates. -/
theorem exists_true_iff {r : Requirement} (h : Aligned P sortedCandidates r) :
    (∃ e ∈ walkOrder (r.versionSets P) (sortedCandidates.getD r []), value e.2 = some true) ↔
      ∃ c ∈ candidatesOf sortedCandidates r, value c = some true := by
  constructor
  · rintro ⟨e, he, hv⟩
    exact ⟨e.2, (mem_walkOrder he).2, hv⟩
  · rintro ⟨c, hc, hv⟩
    obtain ⟨vs, he⟩ := walkOrder_of_mem h hc
    exact ⟨(vs, c), he, hv⟩

/-- The cached state of a requirement that is not dirty is what a walk finds. -/
theorem Fresh.entry (h : Fresh P sortedCandidates disjunctions value q) (r : Requirement) :
    match (q.entryOf r).state with
    | .dirty => True
    | .satisfied by_ => by_ ∈ candidatesOf sortedCandidates r ∧ value by_ = some true
    | .frontier candidate vs count =>
        walk value (walkOrder (r.versionSets P) (sortedCandidates.getD r [])) none =
          some (.frontier candidate vs count) := by
  split
  · trivial
  · next by_ hs => exact ⟨(h.cached.satisfied r by_ hs).1, (h.cached.satisfied r by_ hs).2.1⟩
  · next candidate vs count hs => exact (h.cached.frontier r candidate vs count hs).1

/-- What evaluating a requirement returns is what a walk finds, up to the satisfying candidate. -/
def Agrees (P : DependencyProvider N S)
    (sortedCandidates : IndexMap Requirement (List (List VariableId)))
    (value : VariableId → Option Bool) (r : Requirement) (state : RequirementState) : Prop :=
  match state with
  | .dirty => False
  | .satisfied by_ => by_ ∈ candidatesOf sortedCandidates r ∧ value by_ = some true
  | .frontier candidate vs count =>
      walk value (walkOrder (r.versionSets P) (sortedCandidates.getD r [])) none =
        some (.frontier candidate vs count)

theorem walk_agrees {r : Requirement} {state : RequirementState}
    (hw : walk value (walkOrder (r.versionSets P) (sortedCandidates.getD r [])) none = some state) :
    Agrees P sortedCandidates value r state := by
  by_cases htrue : ∃ e ∈ walkOrder (r.versionSets P) (sortedCandidates.getD r []), value e.2 = some true
  · obtain ⟨e, he, hv, hw'⟩ := walk_true htrue none
    rw [hw', Option.some.injEq] at hw
    subst hw
    exact ⟨(mem_walkOrder he).2, hv⟩
  · have hall : ∀ e ∈ walkOrder (r.versionSets P) (sortedCandidates.getD r []), value e.2 ≠ some true :=
      fun e he hv => htrue ⟨e, he, hv⟩
    rcases walk_none hall with ⟨hw', -⟩ | ⟨candidate, vs, count, hw', -⟩
    · rw [hw'] at hw
      cases hw
    · rw [hw', Option.some.injEq] at hw
      subst hw
      exact hw'

/-- Evaluating a requirement goes through the cache without changing what the queue knows. -/
theorem Fresh.evalRequirement (h : Fresh P sortedCandidates disjunctions value q) {r : Requirement}
    (hr : Aligned P sortedCandidates r) :
    match q.evalRequirement P value sortedCandidates r with
    | none => walk value (walkOrder (r.versionSets P) (sortedCandidates.getD r [])) none = none
    | some (state, q') =>
        Agrees P sortedCandidates value r state ∧ Fresh P sortedCandidates disjunctions value q' ∧
          SameIndex q q' ∧ q'.queue = q.queue ∧ q'.hotQueue = q.hotQueue ∧
          (q'.entryOf r).state = state := by
  simp only [DecideQueue.evalRequirement]
  by_cases hd : (q.entryOf r).state = .dirty
  · rw [if_neg (by simpa [entryOf] using hd)]
    generalize hq₁ : (if (q.requirementStates.getD r {}).occurrencesRegistered = true then q
      else { q with
        requirementsByCandidate := (sortedCandidates.getD r []).flatten.foldl
          (fun m c => pushTo m c r) q.requirementsByCandidate }) = q₁
    cases hw : walk value (walkOrder (r.versionSets P) (sortedCandidates.getD r [])) none with
    | none => exact rfl
    | some state =>
        dsimp only
        -- registering the occurrences only adds to the lists of the candidates
        have hlists : (∀ r' c, r' ∈ q.requirementsByCandidate.getD c [] →
            r' ∈ q₁.requirementsByCandidate.getD c []) ∧
            ∀ c ∈ candidatesOf sortedCandidates r, r ∈ q₁.requirementsByCandidate.getD c [] := by
          rw [← hq₁]
          split
          · next hreg => exact ⟨fun r' c hr' => hr', h.cached.listed r hreg⟩
          · refine ⟨fun r' c hr' => ?_, fun c hc => ?_⟩
            · exact (mem_foldl_pushTo (fun c => c) _ _ _ _ _).mpr (.inl hr')
            · exact (mem_foldl_pushTo (fun c => c) _ _ _ _ _).mpr
                (.inr ⟨by rw [List.map_id']; exact hc, rfl⟩)
        have hsame : SameIndex q q₁ ∧ q₁.queue = q.queue ∧ q₁.hotQueue = q.hotQueue ∧
            q₁.requirementStates = q.requirementStates := by
          rw [← hq₁]
          split
          · exact ⟨.refl q, rfl, rfl, rfl⟩
          · exact ⟨⟨rfl, rfl, rfl, rfl, rfl, rfl, rfl, rfl, rfl⟩, rfl, rfl, rfl⟩
        obtain ⟨hs, hqueue, hhot, hstates⟩ := hsame
        have hentry : ∀ r', entryOf ({ q₁ with
              requirementStates := q₁.requirementStates.insert r ⟨state, true⟩ } : DecideQueue N) r' =
            if r = r' then ⟨state, true⟩ else q.entryOf r' := by
          intro r'
          rw [entryOf, IndexMap.getD_insert, hstates]
          rfl
        have hagrees := walk_agrees hw
        refine ⟨hagrees, ⟨?_, ?_, ?_, ⟨?_, ?_, ?_, ?_⟩, ?_⟩,
          ⟨hs.1, hs.2, hs.3, hs.4, hs.5, hs.6, hs.7, hs.8, hs.9⟩, hqueue, hhot, ?_⟩
        · refine h.indexed.congr (fun id => ?_) hs.1 hs.2 hs.3 hs.5 hs.6 hs.7 hqueue hhot
          rw [Marked, Marked]
          dsimp only
          rw [hs.clauses, hs.hotNames]
        · dsimp only
          rw [hs.clauses]
          exact h.aligned
        · intro r' hne
          rw [hentry] at hne
          split at hne
          · next heq => exact heq ▸ hr
          · exact h.alignedEntry r' hne
        · intro r' hreg c hc
          rw [hentry] at hreg
          split at hreg
          · next heq =>
              subst heq
              exact hlists.2 c hc
          · exact hlists.1 r' c (h.cached.listed r' hreg c hc)
        · intro r' hne
          rw [hentry] at hne ⊢
          split at hne
          · next heq => rw [if_pos heq]
          · next heq =>
              rw [if_neg heq]
              exact h.cached.registered r' hne
        · intro r' by_ hst
          rw [hentry] at hst
          split at hst
          · next heq =>
              subst heq
              simp only at hst
              rw [hst] at hagrees
              exact ⟨hagrees.1, hagrees.2, fun hm => by cases hm⟩
          · exact h.cached.satisfied r' by_ hst
        · intro r' candidate vs count hst
          rw [hentry] at hst
          split at hst
          · next heq =>
              subst heq
              simp only at hst
              rw [hst] at hagrees
              exact ⟨hagrees, by simp⟩
          · exact h.cached.frontier r' candidate vs count hst
        · intro id c hid hawake hdue
          dsimp only at hid
          rw [hs.clauses] at hid
          refine (h.covered id c hid hawake hdue).imp (fun he => ?_) fun h => h.imp fun by_ hb => ?_
          · dsimp only
            rw [hqueue]
            exact he
          -- a requirement that was dirty did not cover a clause
          have hne : r ≠ c.requirement := by
            rintro rfl
            rw [hd] at hb
            cases hb
          rw [hentry, if_neg hne]
          exact hb
        · rw [hentry, if_pos rfl]
  · rw [if_pos (by simpa [entryOf] using hd)]
    refine ⟨?_, h, .refl q, rfl, rfl, rfl⟩
    have := h.entry r
    rw [entryOf] at this hd
    generalize (q.requirementStates.getD r {}).state = state at this hd
    cases state with
    | dirty => exact absurd rfl hd
    | satisfied by_ => exact this
    | frontier candidate vs count => exact this

/-- The frontier of a requirement that a state agrees with. -/
theorem Agrees.frontier {r : Requirement} {state : RequirementState}
    (hr : Aligned P sortedCandidates r) (h : Agrees P sortedCandidates value r state) :
    (match walk value (walkOrder (r.versionSets P) (sortedCandidates.getD r [])) none with
      | some (.frontier candidate vs count) => some (candidate, vs, count)
      | _ => none) =
    (match state with
      | .frontier candidate vs count => some (candidate, vs, count)
      | _ => none) := by
  cases state with
  | dirty => exact h.elim
  | satisfied by_ =>
      obtain ⟨e, -, -, hw⟩ := walk_true ((exists_true_iff hr).mpr ⟨by_, h⟩) none
      rw [hw]
  | frontier candidate vs count =>
      have hw : walk _ _ _ = _ := h
      rw [hw]

/-- Inspecting a clause finds its frontier; a clause without a frontier can leave the queue. -/
theorem Fresh.inspect (h : Fresh P sortedCandidates disjunctions value q) {c : TrackedClause}
    (hr : Aligned P sortedCandidates c.requirement) :
    match q.inspect P value sortedCandidates disjunctions c with
    | none => Awake value disjunctions c ∧
        ∀ candidate ∈ candidatesOf sortedCandidates c.requirement, value candidate = some false
    | some (frontier, q') =>
        frontier = referenceFrontier P sortedCandidates disjunctions value c ∧
          Fresh P sortedCandidates disjunctions value q' ∧ SameIndex q q' ∧ q'.queue = q.queue ∧
          q'.hotQueue = q.hotQueue ∧
          (frontier = none → Awake value disjunctions c →
            ∃ by_, (q'.entryOf c.requirement).state = .satisfied by_) := by
  simp only [DecideQueue.inspect, referenceFrontier]
  by_cases hp : value c.parent = some true
  · have hp' : ¬ value c.parent ≠ some true := by simpa using hp
    rw [if_neg hp', if_neg hp']
    by_cases hcond : conditionHolds value disjunctions c.condition = true
    · have hcond' : ¬ (!conditionHolds value disjunctions c.condition) = true := by simp [hcond]
      rw [if_neg hcond', if_neg hcond']
      have hawake : Awake value disjunctions c := ⟨hp, conditionHolds_iff.mp hcond⟩
      have heval := h.evalRequirement hr
      cases he : q.evalRequirement P value sortedCandidates c.requirement with
      | none =>
          rw [he] at heval
          refine ⟨hawake, fun candidate hc => ?_⟩
          obtain ⟨vs, hmem⟩ := walkOrder_of_mem hr hc
          by_cases htrue : ∃ e ∈ walkOrder (c.requirement.versionSets P)
              (sortedCandidates.getD c.requirement []), value e.2 = some true
          · obtain ⟨e, -, -, hw⟩ := walk_true htrue none
            rw [hw] at heval
            cases heval
          · rcases walk_none fun e he hv => htrue ⟨e, he, hv⟩ with ⟨-, hall⟩ | ⟨_, _, _, hw, -⟩
            · exact hall _ hmem
            · rw [hw] at heval
              cases heval
      | some result =>
          obtain ⟨state, q₁⟩ := result
          rw [he] at heval
          obtain ⟨hagrees, hfresh, hsame, hqueue, hhot, hstate⟩ := heval
          rw [hagrees.frontier hr]
          cases state with
          | dirty => exact hagrees.elim
          | satisfied by_ => exact ⟨rfl, hfresh, hsame, hqueue, hhot, fun _ _ => ⟨by_, hstate⟩⟩
          | frontier candidate vs count =>
              exact ⟨rfl, hfresh, hsame, hqueue, hhot, fun hn => by cases hn⟩
    · have hcond' : (!conditionHolds value disjunctions c.condition) = true := by simpa using hcond
      rw [if_pos hcond', if_pos hcond']
      exact ⟨rfl, h, .refl q, rfl, rfl, fun _ hawake => absurd (conditionHolds_iff.mpr hawake.2) hcond⟩
  · rw [if_pos hp, if_pos hp]
    exact ⟨rfl, h, .refl q, rfl, rfl, fun _ hawake => absurd hawake.1 hp⟩

/-- A clause that is not awake or whose requirement is satisfied can be dequeued. -/
theorem Fresh.dequeue (h : Fresh P sortedCandidates disjunctions value q) {id : TrackedClauseId}
    {c : TrackedClause} (hc : q.clauses[id]? = some c)
    (hcov : Awake value disjunctions c → ∃ by_, (q.entryOf c.requirement).state = .satisfied by_) :
    Fresh P sortedCandidates disjunctions value (q.dequeue c.position) where
  indexed := (h.indexed.dequeue c.position).congr (fun _ => Iff.rfl) rfl rfl rfl rfl rfl rfl rfl rfl
  aligned := h.aligned
  alignedEntry := h.alignedEntry
  cached := ⟨h.cached.listed, h.cached.registered, h.cached.satisfied, h.cached.frontier⟩
  covered := by
    intro id' c' hc' hawake hdue
    by_cases hp : c'.position = c.position
    · obtain rfl := h.indexed.position_inj hc' hc hp
      rw [show q.clauses[id']? = some c' from hc', Option.some.injEq] at hc
      subst hc
      exact .inr (hcov hawake)
    · exact (h.covered id' c' hc' hawake hdue).imp_left fun he =>
        PositionMap.mem_remove.mpr ⟨he, hp⟩

theorem SameIndex.dequeue (h : SameIndex q q') (p : ClausePosition) : SameIndex q (q'.dequeue p) :=
  ⟨h.1, h.2, h.3, h.4, h.5, h.6, h.7, h.8, h.9⟩

/-- The frontier of the clause of an entry. -/
def entryFrontier (P : DependencyProvider N S)
    (sortedCandidates : IndexMap Requirement (List (List VariableId)))
    (disjunctions : List Disjunction) (value : VariableId → Option Bool) (q : DecideQueue N)
    (e : ClausePosition × TrackedClauseId) : Option (TrackedClause × VariableId × VersionSetId × Nat) :=
  (q.clauses[e.2]?).bind fun c =>
    (referenceFrontier P sortedCandidates disjunctions value c).map fun f => (c, f)

/-- A candidate for the decision, as the selection weighs it. -/
def weigh (P : DependencyProvider N S) (A : ActivityParams F) (nameActivity : IndexMap N F)
    (c : TrackedClause) (f : VariableId × VersionSetId × Nat) : Best F :=
  { position := c.position
    explicit := c.parent = VariableId.root
    activity := packageActivity P A nameActivity f.2.1
    count := f.2.2
    decision := ⟨f.1, c.parent, c.clauseId⟩ }

/-- The search for the first eligible clause: it dequeues the clauses on the way, none of which is
    eligible. It fails only on a clause whose candidates are all false. -/
theorem Fresh.firstEligible (h : Fresh P sortedCandidates disjunctions value q) (A : ActivityParams F)
    (nameActivity : IndexMap N F) (l : PositionMap)
    (hl : ∀ e ∈ l, ∃ c, q.clauses[e.2]? = some c ∧ c.position = e.1) :
    match DecideQueue.firstEligible P A value sortedCandidates disjunctions nameActivity l q with
    | none => ∃ e ∈ l, ∃ c, q.clauses[e.2]? = some c ∧ Awake value disjunctions c ∧
        ∀ candidate ∈ candidatesOf sortedCandidates c.requirement, value candidate = some false
    | some (none, q') => Fresh P sortedCandidates disjunctions value q' ∧ SameIndex q q' ∧
        ∀ e ∈ l, entryFrontier P sortedCandidates disjunctions value q e = none
    | some (some best, q') => Fresh P sortedCandidates disjunctions value q' ∧ SameIndex q q' ∧
        ∃ before e after c f, l = before ++ e :: after ∧
          (∀ e ∈ before, entryFrontier P sortedCandidates disjunctions value q e = none) ∧
          entryFrontier P sortedCandidates disjunctions value q e = some (c, f) ∧
          best = weigh P A nameActivity c f := by
  induction l generalizing q with
  | nil => exact ⟨h, .refl q, by simp⟩
  | cons e l ih =>
      obtain ⟨p, id⟩ := e
      obtain ⟨c, hc, hp⟩ := hl (p, id) List.mem_cons_self
      dsimp only at hc hp
      subst hp
      have hr := h.aligned id c hc
      have hinspect := h.inspect hr
      simp only [DecideQueue.firstEligible, hc]
      cases hi : q.inspect P value sortedCandidates disjunctions c with
      | none =>
          rw [hi] at hinspect
          exact ⟨_, List.mem_cons_self, c, hc, hinspect⟩
      | some result =>
          obtain ⟨frontier, q₁⟩ := result
          rw [hi] at hinspect
          obtain ⟨hfr, hfresh, hsame, hqueue, hhot, hcov⟩ := hinspect
          have hentry : entryFrontier P sortedCandidates disjunctions value q (c.position, id) =
              frontier.map fun f => (c, f) := by
            rw [entryFrontier, hc, Option.bind_some, hfr]
          cases frontier with
          | some f =>
              obtain ⟨candidate, vs, count⟩ := f
              exact ⟨hfresh, hsame, [], (c.position, id), l, c, (candidate, vs, count), rfl, by simp,
                hentry, rfl⟩
          | none =>
              have hc₁ : q₁.clauses[id]? = some c := by rw [hsame.clauses]; exact hc
              have hl₁ : ∀ e ∈ l, ∃ c', (q₁.dequeue c.position).clauses[e.2]? = some c' ∧
                  c'.position = e.1 := by
                intro e he
                obtain ⟨c', hc', hp'⟩ := hl e (List.mem_cons_of_mem _ he)
                exact ⟨c', by rw [show (q₁.dequeue c.position).clauses = q₁.clauses from rfl,
                  hsame.clauses]; exact hc', hp'⟩
              have hrest := ih (hfresh.dequeue hc₁ (hcov rfl)) hl₁
              have hsame₁ := hsame.dequeue c.position
              have hentries : ∀ e, entryFrontier P sortedCandidates disjunctions value
                  (q₁.dequeue c.position) e = entryFrontier P sortedCandidates disjunctions value q e := by
                intro e
                rw [entryFrontier, entryFrontier, hsame₁.clauses]
              have hnone : entryFrontier P sortedCandidates disjunctions value q (c.position, id) = none :=
                hentry
              simp only [hentries] at hrest
              dsimp only
              generalize DecideQueue.firstEligible P A value sortedCandidates disjunctions nameActivity l
                (q₁.dequeue c.position) = result at hrest ⊢
              match result, hrest with
              | none, ⟨e, he, c', hc', hrest⟩ =>
                  refine ⟨e, List.mem_cons_of_mem _ he, c', ?_, hrest⟩
                  rw [hsame₁.clauses] at hc'
                  exact hc'
              | some (none, q'), ⟨hf, hs, hall⟩ =>
                  refine ⟨hf, hsame₁.trans hs, fun e he => ?_⟩
                  rcases List.mem_cons.mp he with rfl | he
                  · exact hnone
                  · exact hall e he
              | some (some best, q'), ⟨hf, hs, before, e, after, c', f, hl', hb, he, hbest⟩ =>
                  refine ⟨hf, hsame₁.trans hs, (c.position, id) :: before, e, after, c', f,
                    by rw [hl']; rfl, fun e' he' => ?_, he, hbest⟩
                  rcases List.mem_cons.mp he' with rfl | he'
                  · exact hnone
                  · exact hb e' he'

/-- The search for a better clause, with the frontiers recomputed from the assignment. -/
def scanBest (P : DependencyProvider N S) (A : ActivityParams F)
    (sortedCandidates : IndexMap Requirement (List (List VariableId)))
    (disjunctions : List Disjunction) (value : VariableId → Option Bool) (nameActivity : IndexMap N F)
    (maxActivity : F) (q : DecideQueue N) : PositionMap → Best F → Best F
  | [], best => best
  | e :: rest, best =>
      match q.clauses[e.2]? with
      | none => best
      | some c =>
          if best.explicit ∧ ¬c.parent = VariableId.root then
            scanBest P A sortedCandidates disjunctions value nameActivity maxActivity q rest best
          else
            match referenceFrontier P sortedCandidates disjunctions value c with
            | none => scanBest P A sortedCandidates disjunctions value nameActivity maxActivity q rest best
            | some (candidate, vs, count) =>
                let activity := packageActivity P A nameActivity vs
                if A.ge best.activity activity || best.count ≤ count then
                  scanBest P A sortedCandidates disjunctions value nameActivity maxActivity q rest best
                else
                  let new := weigh P A nameActivity c (candidate, vs, count)
                  if unbeatable A maxActivity q.hotOnly new then new
                  else scanBest P A sortedCandidates disjunctions value nameActivity maxActivity q rest new

theorem scanBest_congr (hs : SameIndex q q') (l : PositionMap) (best : Best F) :
    scanBest P A sortedCandidates disjunctions value nameActivity maxActivity q' l best =
      scanBest P A sortedCandidates disjunctions value nameActivity maxActivity q l best := by
  induction l generalizing best with
  | nil => rfl
  | cons e l ih => simp only [scanBest, hs.clauses, hs.hotOnly, ih]

/-- The search for a better clause finds what recomputing the frontiers finds. It fails only on a clause
    whose candidates are all false. -/
theorem Fresh.improve (h : Fresh P sortedCandidates disjunctions value q) (A : ActivityParams F)
    (nameActivity : IndexMap N F) (maxActivity : F) (l : PositionMap) (best : Best F)
    (hl : ∀ e ∈ l, ∃ c, q.clauses[e.2]? = some c ∧ c.position = e.1) :
    match DecideQueue.improve P A value sortedCandidates disjunctions nameActivity maxActivity l best q with
    | none => ∃ e ∈ l, ∃ c, q.clauses[e.2]? = some c ∧ Awake value disjunctions c ∧
        ∀ candidate ∈ candidatesOf sortedCandidates c.requirement, value candidate = some false
    | some (best', q') => Fresh P sortedCandidates disjunctions value q' ∧ SameIndex q q' ∧
        best' = scanBest P A sortedCandidates disjunctions value nameActivity maxActivity q l best := by
  induction l generalizing q best with
  | nil => exact ⟨h, .refl q, rfl⟩
  | cons e l ih =>
      obtain ⟨p, id⟩ := e
      obtain ⟨c, hc, hp⟩ := hl (p, id) List.mem_cons_self
      dsimp only at hc hp
      subst hp
      have hr := h.aligned id c hc
      have hinspect := h.inspect hr
      -- the rest of the list is searched from a queue with the same clauses
      have hstep : ∀ {q₁ : DecideQueue N} (best₁ : Best F), SameIndex q q₁ →
          Fresh P sortedCandidates disjunctions value q₁ →
          match DecideQueue.improve P A value sortedCandidates disjunctions nameActivity maxActivity l
              best₁ q₁ with
          | none => ∃ e ∈ (c.position, id) :: l, ∃ c, q.clauses[e.2]? = some c ∧
              Awake value disjunctions c ∧
              ∀ candidate ∈ candidatesOf sortedCandidates c.requirement, value candidate = some false
          | some (best', q') => Fresh P sortedCandidates disjunctions value q' ∧ SameIndex q q' ∧
              best' = scanBest P A sortedCandidates disjunctions value nameActivity maxActivity q l
                best₁ := by
        intro q₁ best₁ hsame hfresh
        have hl₁ : ∀ e ∈ l, ∃ c', q₁.clauses[e.2]? = some c' ∧ c'.position = e.1 := by
          intro e he
          rw [hsame.clauses]
          exact hl e (List.mem_cons_of_mem _ he)
        have hrest := ih hfresh best₁ hl₁
        rw [scanBest_congr hsame] at hrest
        generalize DecideQueue.improve P A value sortedCandidates disjunctions nameActivity maxActivity l
          best₁ q₁ = result at hrest ⊢
        match result, hrest with
        | none, ⟨e, he, c', hc', hrest⟩ =>
            rw [hsame.clauses] at hc'
            exact ⟨e, List.mem_cons_of_mem _ he, c', hc', hrest⟩
        | some (best', q'), ⟨hf, hs, hb⟩ => exact ⟨hf, hsame.trans hs, hb⟩
      simp only [DecideQueue.improve, scanBest, hc]
      by_cases hex : best.explicit = true ∧ ¬c.parent = VariableId.root
      · rw [if_pos (by simpa using hex), if_pos hex]
        exact hstep best (.refl q) h
      · rw [if_neg (by simpa using hex), if_neg hex]
        cases hi : q.inspect P value sortedCandidates disjunctions c with
        | none =>
            rw [hi] at hinspect
            exact ⟨_, List.mem_cons_self, c, hc, hinspect⟩
        | some result =>
            obtain ⟨frontier, q₁⟩ := result
            rw [hi] at hinspect
            obtain ⟨hfr, hfresh, hsame, hqueue, hhot, hcov⟩ := hinspect
            rw [← hfr]
            cases frontier with
            | none =>
                have hc₁ : q₁.clauses[id]? = some c := by rw [hsame.clauses]; exact hc
                exact hstep best (hsame.dequeue c.position) (hfresh.dequeue hc₁ (hcov rfl))
            | some f =>
                obtain ⟨candidate, vs, count⟩ := f
                dsimp only
                by_cases hge : (A.ge best.activity (packageActivity P A nameActivity vs) ||
                    decide (best.count ≤ count)) = true
                · simp only [if_pos hge]
                  exact hstep best hsame hfresh
                · have hnew : (⟨c.position, c.parent = VariableId.root,
                      packageActivity P A nameActivity vs, count,
                      ⟨candidate, c.parent, c.clauseId⟩⟩ : Best F) =
                      weigh P A nameActivity c (candidate, vs, count) := rfl
                  simp only [if_neg hge, hsame.hotOnly, hnew]
                  by_cases hu : unbeatable A maxActivity q.hotOnly
                      (weigh P A nameActivity c (candidate, vs, count)) = true
                  · simp only [if_pos hu]
                    exact ⟨hfresh, hsame, trivial⟩
                  · simp only [if_neg hu]
                    exact hstep _ hsame hfresh

/-- A clause whose candidates are not all false. -/
def Undecided (sortedCandidates : IndexMap Requirement (List (List VariableId)))
    (value : VariableId → Option Bool) (disjunctions : List Disjunction) (q : DecideQueue N) : Prop :=
  ∀ c ∈ q.clauses, Eligible sortedCandidates value disjunctions c →
    ∃ candidate ∈ candidatesOf sortedCandidates c.requirement, value candidate = none

/-- Selecting keeps the queue right, and fails only on an eligible clause whose candidates are all false. -/
theorem Fresh.nextDecision (h : Fresh P sortedCandidates disjunctions value q) (A : ActivityParams F)
    (nameActivity : IndexMap N F) (maxActivity : F) :
    match q.nextDecision P A value sortedCandidates disjunctions nameActivity maxActivity with
    | none => ¬ Undecided sortedCandidates value disjunctions q
    | some (_, q') => Fresh P sortedCandidates disjunctions value q' ∧ SameIndex q q' := by
  have hstuck : ∀ {l : PositionMap}, (∃ e ∈ l, ∃ c, q.clauses[e.2]? = some c ∧
      Awake value disjunctions c ∧ ∀ candidate ∈ candidatesOf sortedCandidates c.requirement,
        value candidate = some false) → ¬ Undecided sortedCandidates value disjunctions q := by
    rintro l ⟨e, -, c, hc, hawake, hall⟩ hund
    obtain ⟨candidate, hmem, hnone⟩ := hund c (List.mem_of_getElem? hc)
      ⟨hawake, fun candidate hmem hv => by rw [hall candidate hmem] at hv; cases hv⟩
    rw [hall candidate hmem] at hnone
    cases hnone
  have hfirst := h.firstEligible A nameActivity q.queue h.indexed.queued
  simp only [DecideQueue.nextDecision]
  generalize DecideQueue.firstEligible P A value sortedCandidates disjunctions nameActivity q.queue q =
    result at hfirst ⊢
  match result, hfirst with
  | none, hfirst => exact hstuck hfirst
  | some (none, q₁), ⟨hf, hs, _⟩ => exact ⟨hf, hs⟩
  | some (some best, q₁), ⟨hf, hs, _⟩ =>
      dsimp only
      by_cases hu : unbeatable A maxActivity q₁.hotOnly best = true
      · rw [if_pos hu]
        exact ⟨hf, hs⟩
      · rw [if_neg hu]
        have hqueued : ∀ e ∈ PositionMap.after best.position
            (if q₁.hotOnly = true then q₁.hotQueue else q₁.queue), e ∈ q₁.queue := by
          intro e he
          have he := (List.mem_filter.mp he).1
          split at he
          · exact ((hf.indexed.hotQueued e).mp he).1
          · exact he
        have himprove := hf.improve A nameActivity maxActivity
          (PositionMap.after best.position (if q₁.hotOnly = true then q₁.hotQueue else q₁.queue)) best
          fun e he => hf.indexed.queued e (hqueued e he)
        generalize DecideQueue.improve P A value sortedCandidates disjunctions nameActivity maxActivity
          (PositionMap.after best.position (if q₁.hotOnly = true then q₁.hotQueue else q₁.queue)) best q₁ =
            result at himprove ⊢
        match result, himprove with
        | none, himprove =>
            rw [hs.clauses] at himprove
            exact hstuck himprove
        | some (best', q'), ⟨hf', hs', _⟩ => exact ⟨hf', hs.trans hs'⟩

end Select

/-! ## Runs -/

end DecideQueue

open DecideQueue

variable {N S : Type} [DecidableEq N] [DecidableEq S]

/-- The queue beside the trail it follows. -/
structure QueueState (N : Type) where
  queue : DecideQueue N
  tracker : DecisionTracker := {}
  disjunctions : List Disjunction := []
  /-- The names that were marked hot. -/
  marked : List N := []
  /-- Whether the trail is the one of the latest synchronisation. -/
  synced : Bool := false

/-- What the solver does with the queue and its trail. -/
inductive QueueStep (P : DependencyProvider N S)
    (sortedCandidates : IndexMap Requirement (List (List VariableId))) :
    QueueState N → QueueState N → Prop where
  | allocDisjunction {s : QueueState N} (disjunction : Disjunction) :
      QueueStep P sortedCandidates s { s with disjunctions := s.disjunctions ++ [disjunction] }
  | registerClause {s : QueueState N} (parent : VariableId) (requirement : Requirement)
      (condition : Option DisjunctionId) (clauseId : ClauseId)
      (hcondition : ∀ d, condition = some d → d < s.disjunctions.length)
      (haligned : Aligned P sortedCandidates requirement) :
      QueueStep P sortedCandidates s
        { s with
          queue := s.queue.registerClause parent requirement condition clauseId
            ((requirement.versionSets P).map P.versionSetName) s.disjunctions
            (s.tracker.assignedValue parent) }
  | markNameHot {s : QueueState N} (name : N) :
      QueueStep P sortedCandidates s
        { s with queue := s.queue.markNameHot name, marked := s.marked ++ [name] }
  | tryAddDecision {s : QueueState N} (d : Decision) (level : Nat) (isNew : Bool)
      (tracker : DecisionTracker) (h : s.tracker.tryAddDecision d level = some (isNew, tracker)) :
      QueueStep P sortedCandidates s { s with tracker, synced := false }
  | undoLast {s : QueueState N} (d : Decision) (level : Nat) (tracker : DecisionTracker)
      (h : s.tracker.undoLast = some (d, level, tracker)) :
      QueueStep P sortedCandidates s { s with tracker, synced := false }
  | undoUntil {s : QueueState N} (level : Nat) (tracker : DecisionTracker)
      (h : s.tracker.undoUntil level = some tracker) :
      QueueStep P sortedCandidates s { s with tracker, synced := false }
  | clear {s : QueueState N} :
      QueueStep P sortedCandidates s { s with tracker := s.tracker.clear, synced := false }
  | sync {s : QueueState N} (floor : Nat) (tracker : DecisionTracker)
      (h : s.tracker.takeSyncFloor = (floor, tracker)) :
      QueueStep P sortedCandidates s
        { s with
          queue := s.queue.sync floor tracker.stack tracker.map.value
          tracker
          synced := true }
  | nextDecision {F : Type} {s : QueueState N} (A : ActivityParams F) (nameActivity : IndexMap N F)
      (maxActivity : F) (decision : Option QueueDecision) (queue : DecideQueue N)
      (hsynced : s.synced = true)
      (hundecided : Undecided sortedCandidates s.tracker.map.value s.disjunctions s.queue)
      (h : s.queue.nextDecision P A s.tracker.map.value sortedCandidates s.disjunctions nameActivity
        maxActivity = some (decision, queue)) :
      QueueStep P sortedCandidates s { s with queue }

/-- The states of the runs of a queue. -/
def QueueState.Reachable (P : DependencyProvider N S)
    (sortedCandidates : IndexMap Requirement (List (List VariableId))) (s : QueueState N) : Prop :=
  ∃ hotOnly, Relation.ReflTransGen (QueueStep P sortedCandidates)
    { queue := { hotOnly := hotOnly } } s

/-- What holds of the queue in every state of a run. -/
structure QueueState.Inv (P : DependencyProvider N S)
    (sortedCandidates : IndexMap Requirement (List (List VariableId))) (s : QueueState N) : Prop where
  marked : ∀ name, name ∈ s.queue.hotNames ↔ name ∈ s.marked
  tracking : ∃ synced, Tracking P sortedCandidates s.disjunctions synced s.queue s.tracker ∧
    (s.synced = true → synced = s.tracker.map.value ∧ s.tracker.syncFloor = s.tracker.stack.length)

section Run

variable {P : DependencyProvider N S} {disjunctions : List Disjunction}
  {sortedCandidates : IndexMap Requirement (List (List VariableId))}
  {synced : VariableId → Option Bool} {q : DecideQueue N} {t t' : DecisionTracker}

/-- A synchronised queue is right for every clause. -/
theorem DecideQueue.Tracking.fresh (h : Tracking P sortedCandidates disjunctions t.map.value q t)
    (hfloor : t.syncFloor = t.stack.length) :
    Fresh P sortedCandidates disjunctions t.map.value q where
  indexed := h.indexed
  aligned := h.aligned
  alignedEntry := h.alignedEntry
  cached := h.cached
  covered := by
    intro id c hc hawake _
    refine h.covered id c hc hawake fun v hv => ?_
    obtain ⟨b, hb⟩ := hawake.assigned hv
    refine h.tracks.mem_kept hb ?_
    rw [hfloor, List.drop_length]
    simp

theorem DecideQueue.Tracking.ofFresh {q' : DecideQueue N}
    (h : Tracking P sortedCandidates disjunctions t.map.value q t)
    (hf : Fresh P sortedCandidates disjunctions t.map.value q') (hm : q'.mirror = q.mirror) :
    Tracking P sortedCandidates disjunctions t.map.value q' t where
  indexed := hf.indexed
  aligned := hf.aligned
  alignedEntry := hf.alignedEntry
  cached := hf.cached
  covered := fun id c hc hawake _ => hf.covered id c hc hawake trivial
  tracks := by rw [hm]; exact h.tracks

/-- A change of the trail that keeps the part below its new floor. -/
theorem DecideQueue.Tracking.moved (h : Tracking P sortedCandidates disjunctions synced q t)
    (ht : Tracks synced q.mirror t' ∧ t'.syncFloor ≤ t.syncFloor) :
    Tracking P sortedCandidates disjunctions synced q t' where
  indexed := h.indexed
  aligned := h.aligned
  alignedEntry := h.alignedEntry
  cached := h.cached
  covered := fun id c hc hawake hdue => h.covered id c hc hawake fun v hv =>
    (List.take_prefix_take_left ht.2).subset (hdue v hv)
  tracks := ht.1

/-- The literals of an allocated condition stay what they are. -/
theorem conditionLiterals_append {condition : Option DisjunctionId}
    (h : ∀ d, condition = some d → d < disjunctions.length) (disjunction : Disjunction) :
    conditionLiterals (disjunctions ++ [disjunction]) condition =
      conditionLiterals disjunctions condition := by
  cases condition with
  | none => rfl
  | some d =>
      rw [conditionLiterals, conditionLiterals, Option.bind_some, Option.bind_some,
        List.getElem?_append_left (h d rfl)]

theorem DecideQueue.Tracking.allocDisjunction (h : Tracking P sortedCandidates disjunctions synced q t)
    (disjunction : Disjunction) :
    Tracking P sortedCandidates (disjunctions ++ [disjunction]) synced q t := by
  have hsame : ∀ (id : TrackedClauseId) c, q.clauses[id]? = some c →
      conditionLiterals (disjunctions ++ [disjunction]) c.condition =
        conditionLiterals disjunctions c.condition := fun id c hc =>
    conditionLiterals_append (fun d hd => h.indexed.allocated id c d hc hd) disjunction
  refine ⟨{ h.indexed with
    allocated := fun id c d hc hd => ?_
    byCondition := fun id c hc => ?_ }, h.aligned, h.alignedEntry, h.cached,
    fun id c hc hawake hdue => ?_, h.tracks⟩
  · rw [List.length_append]
    exact Nat.lt_add_right _ (h.indexed.allocated id c d hc hd)
  · rw [hsame id c hc]
    exact h.indexed.byCondition id c hc
  · rw [Awake, hsame id c hc] at hawake
    refine h.covered id c hc hawake fun v hv => hdue v ?_
    rw [wakers, hsame id c hc]
    exact hv

/-- What registering a clause adds. -/
theorem registerClause_frame (q : DecideQueue N) (parent : VariableId) (requirement : Requirement)
    (condition : Option DisjunctionId) (clauseId : ClauseId) (names : List N)
    (disjunctions : List Disjunction) (parentValue : Option Bool) :
    ∃ new : TrackedClause, new.parent = parent ∧ new.requirement = requirement ∧
      new.condition = condition ∧
      let q' := q.registerClause parent requirement condition clauseId names disjunctions parentValue
      q'.clauses = q.clauses ++ [new] ∧ (∀ r, q'.entryOf r = q.entryOf r) ∧
        q'.requirementsByCandidate = q.requirementsByCandidate ∧ q'.mirror = q.mirror ∧
        q'.hotNames = q.hotNames ∧ q'.hotOnly = q.hotOnly ∧
        q'.queue = if parentValue = some true then
          PositionMap.insert new.position q.clauses.length q.queue else q.queue := by
  obtain ⟨positions, lists, heq⟩ := parentPosition_eq q parent
  generalize hr : q.parentPosition parent = r at heq
  obtain ⟨pos, q0⟩ := r
  dsimp only at heq
  have hclauses : q0.clauses = q.clauses := by rw [heq]
  have hqueue : q0.queue = q.queue := by rw [heq]
  have hstates : q0.requirementStates = q.requirementStates := by rw [heq]
  simp only [registerClause, hr]
  refine ⟨_, rfl, rfl, rfl, congrArg (· ++ [_]) hclauses, fun r => ?_, by rw [heq], by rw [heq],
    by rw [heq], by rw [heq], by rw [hqueue, hclauses]⟩
  simp only [entryOf, hstates]
  cases hg : q.requirementStates.get? requirement with
  | some entry => rfl
  | none =>
      dsimp only
      rw [IndexMap.getD_insert]
      split
      · next hreq => rw [← hreq, IndexMap.getD, hg, Option.getD_none]
      · rfl

theorem DecideQueue.Tracking.registerClause (h : Tracking P sortedCandidates disjunctions synced q t)
    (parent : VariableId) {requirement : Requirement} {condition : Option DisjunctionId}
    (clauseId : ClauseId) (hcondition : ∀ d, condition = some d → d < disjunctions.length)
    (haligned : Aligned P sortedCandidates requirement) :
    Tracking P sortedCandidates disjunctions synced
      (q.registerClause parent requirement condition clauseId (clauseNames P requirement) disjunctions
        (t.map.value parent)) t := by
  have hindexed := h.indexed.registerClause parent requirement clauseId hcondition (t.map.value parent)
  obtain ⟨new, hparent, hrequirement, -, hclauses, hentry, hcandidates, hmirror, -, -, hqueue⟩ :=
    registerClause_frame q parent requirement condition clauseId (clauseNames P requirement) disjunctions
      (t.map.value parent)
  generalize q.registerClause parent requirement condition clauseId (clauseNames P requirement)
    disjunctions (t.map.value parent) = q' at *
  have hnew : q'.clauses[q.clauses.length]? = some new := by
    rw [hclauses, List.getElem?_concat_length]
  have hold : ∀ {id : TrackedClauseId} {c : TrackedClause}, q'.clauses[id]? = some c →
      q.clauses[id]? = some c ∨ (id = q.clauses.length ∧ c = new) := by
    intro id c hc
    by_cases hlt : id < q.clauses.length
    · rw [hclauses, List.getElem?_append_left hlt] at hc
      exact .inl hc
    · have hid : id = q.clauses.length := by
        have := (List.getElem?_eq_some_iff.mp hc).1
        rw [hclauses, List.length_append, List.length_singleton] at this
        exact Nat.le_antisymm (Nat.le_of_lt_succ this) (Nat.not_lt.mp hlt)
      rw [hid, hnew, Option.some.injEq] at hc
      exact .inr ⟨hid, hc.symm⟩
  refine ⟨hindexed, ?_, ?_, ⟨?_, ?_, ?_, ?_⟩, ?_, ?_⟩
  · intro id c hc
    rcases hold hc with hc | ⟨-, rfl⟩
    · exact h.aligned id c hc
    · exact hrequirement ▸ haligned
  · intro r hr
    rw [hentry] at hr
    exact h.alignedEntry r hr
  · intro r hr
    rw [hentry] at hr
    rw [hcandidates]
    exact h.cached.listed r hr
  · intro r hr
    rw [hentry] at hr ⊢
    exact h.cached.registered r hr
  · intro r by_ hs
    rw [hentry] at hs
    exact h.cached.satisfied r by_ hs
  · intro r candidate vs count hs
    rw [hentry] at hs
    exact h.cached.frontier r candidate vs count hs
  · intro id c hc hawake hdue
    rw [hmirror] at hdue
    rw [hentry, hqueue]
    rcases hold hc with hc' | ⟨rfl, rfl⟩
    · refine (h.covered id c hc' hawake hdue).imp_left fun he => ?_
      split
      · refine h.indexed.sorted.mem_insert.mpr (.inr ⟨he, fun hp => ?_⟩)
        -- two clauses do not share a position
        have hid := hindexed.position_inj hc hnew hp
        have hlt := (List.getElem?_eq_some_iff.mp hc').1
        rw [hid] at hlt
        exact absurd hlt (Nat.lt_irrefl _)
      · exact he
    · -- a new clause is queued when its parent is true, and its parent is in place
      have hvalue := h.tracks.value_kept (hdue _ List.mem_cons_self)
      rw [hparent] at hvalue
      rw [if_pos (by rw [hvalue, ← hparent]; exact hawake.1)]
      exact .inl (h.indexed.sorted.mem_insert.mpr (.inl rfl))
  · rw [hmirror]
    exact h.tracks

theorem DecideQueue.Tracking.markNameHot (h : Tracking P sortedCandidates disjunctions synced q t) (name : N) :
    Tracking P sortedCandidates disjunctions synced (q.markNameHot name) t := by
  have hindexed := h.indexed.markNameHot name
  have hkept := markNameHot_clauses q name
  obtain ⟨clauses, hotQueue, hotNames, heq, -, -⟩ := markNameHot_frame q name
  refine ⟨hindexed, fun id c hc => ?_, ?_, ?_, fun id c hc hawake hdue => ?_, by rw [heq]; exact h.tracks⟩
  · obtain ⟨c', hc', hsame⟩ := hkept id c hc
    rw [hsame.2.2.1]
    exact h.aligned id c' hc'
  · rw [heq]
    exact h.alignedEntry
  · rw [heq]
    exact ⟨h.cached.listed, h.cached.registered, h.cached.satisfied, h.cached.frontier⟩
  · obtain ⟨c', hc', hp, hpar, hreq, hcond⟩ := hkept id c hc
    have hwakers : wakers disjunctions c' = wakers disjunctions c := by
      rw [wakers, wakers, hpar, hcond]
    rw [Awake, hpar, hcond] at hawake
    have hm : (q.markNameHot name).mirror = q.mirror := by rw [heq]
    rw [hm, ← hwakers] at hdue
    have hcov := h.covered id c' hc' hawake hdue
    rw [hp, hreq]
    rw [heq]
    exact hcov

variable {s s' : QueueState N}

theorem QueueState.Inv.init (hotOnly : Bool) :
    QueueState.Inv P sortedCandidates { queue := { hotOnly := hotOnly } } where
  marked := fun name => Iff.rfl
  tracking := by
    refine ⟨fun _ => none, ⟨⟨?_, ?_, ?_, ?_, ?_, ?_, ?_, ?_, ?_, ?_, ?_⟩, ?_, ?_, ⟨?_, ?_, ?_, ?_⟩, ?_,
      Tracks.empty⟩, fun h => by cases h⟩
    all_goals simp [entryOf, IndexMap.getD, Covered, PositionMap.Sorted]

/-- Every step keeps the queue right for the assignment of the latest synchronisation. -/
theorem QueueState.Inv.step (h : s.Inv P sortedCandidates) (hstep : QueueStep P sortedCandidates s s') :
    s'.Inv P sortedCandidates := by
  obtain ⟨hmarked, synced, htrack, hfresh⟩ := h
  cases hstep with
  | allocDisjunction disjunction =>
      exact ⟨hmarked, synced, htrack.allocDisjunction disjunction, hfresh⟩
  | registerClause parent requirement condition clauseId hcondition haligned =>
      obtain ⟨-, -, -, -, -, -, -, -, hnames, -⟩ := registerClause_frame s.queue parent requirement
        condition clauseId (clauseNames P requirement) s.disjunctions (s.tracker.map.value parent)
      refine ⟨fun name => ?_, synced, htrack.registerClause parent clauseId hcondition haligned, hfresh⟩
      exact (iff_of_eq (congrArg (name ∈ ·) hnames)).trans (hmarked name)
  | markNameHot name =>
      refine ⟨fun n => ?_, synced, htrack.markNameHot name, hfresh⟩
      obtain ⟨clauses, hotQueue, hotNames, heq, -, hnames⟩ := markNameHot_frame s.queue name
      dsimp only
      rw [heq, hnames, hmarked, List.mem_append, List.mem_singleton]
  | tryAddDecision d level isNew tracker ha =>
      obtain ⟨ht, hle⟩ := htrack.tracks.tryAddDecision ha
      exact ⟨hmarked, synced, htrack.moved ⟨ht, hle.le⟩, fun h => by cases h⟩
  | undoLast d level tracker hu =>
      exact ⟨hmarked, synced, htrack.moved (htrack.tracks.undoLast hu), fun h => by cases h⟩
  | undoUntil level tracker hu =>
      exact ⟨hmarked, synced, htrack.moved (htrack.tracks.undoUntil hu), fun h => by cases h⟩
  | clear =>
      exact ⟨hmarked, synced, htrack.moved ⟨htrack.tracks.clear, Nat.zero_le _⟩, fun h => by cases h⟩
  | sync floor tracker ht =>
      obtain ⟨htrack', hnames⟩ := htrack.sync
      rw [ht] at htrack' hnames
      have hval : tracker.map.value = s.tracker.map.value := by
        have := congrArg (fun p => p.2.map.value) ht
        exact this.symm
      have hfloor : tracker.syncFloor = tracker.stack.length := by
        have h1 := congrArg (fun p => p.2.syncFloor) ht
        have h2 := congrArg (fun p => p.2.stack.length) ht
        exact h1.symm.trans h2
      refine ⟨fun name => ?_, s.tracker.map.value, htrack', fun _ => ⟨hval.symm, hfloor⟩⟩
      dsimp only at hnames ⊢
      rw [hnames]
      exact hmarked name
  | nextDecision A nameActivity maxActivity decision queue hsynced hundecided hnext =>
      obtain ⟨rfl, hfloor⟩ := hfresh hsynced
      have hnext' := (htrack.fresh hfloor).nextDecision A nameActivity maxActivity
      rw [hnext] at hnext'
      obtain ⟨hf, hs⟩ := hnext'
      refine ⟨fun name => ?_, _, htrack.ofFresh hf hs.mirror, hfresh⟩
      dsimp only
      rw [hs.hotNames]
      exact hmarked name

theorem QueueState.Reachable.inv (h : s.Reachable P sortedCandidates) : s.Inv P sortedCandidates := by
  obtain ⟨hotOnly, hrun⟩ := h
  induction hrun with
  | refl => exact .init hotOnly
  | tail _ hstep ih => exact ih.step hstep

/-- A synchronised state is right for its assignment. -/
theorem QueueState.Reachable.fresh (h : s.Reachable P sortedCandidates) (hs : s.synced = true) :
    Fresh P sortedCandidates s.disjunctions s.tracker.map.value s.queue := by
  obtain ⟨-, synced, htrack, hfresh⟩ := h.inv
  obtain ⟨rfl, hfloor⟩ := hfresh hs
  exact htrack.fresh hfloor

/-- Nothing is lost: the eligible clauses are queued, the hot queue is the hot part of the queue, the hot
    clauses are the ones with a marked name, and the cache agrees with the assignment. -/
structure QueueState.Consistent (P : DependencyProvider N S)
    (sortedCandidates : IndexMap Requirement (List (List VariableId))) (s : QueueState N) : Prop where
  queued : ∀ (id : TrackedClauseId) c, s.queue.clauses[id]? = some c →
    Eligible sortedCandidates s.tracker.map.value s.disjunctions c → (c.position, id) ∈ s.queue.queue
  hotQueue : ∀ e, e ∈ s.queue.hotQueue ↔
    e ∈ s.queue.queue ∧ ∃ c, s.queue.clauses[e.2]? = some c ∧ c.hot = true
  hot : ∀ (id : TrackedClauseId) c, s.queue.clauses[id]? = some c →
    (c.hot = true ↔ ∃ name ∈ clauseNames P c.requirement, name ∈ s.marked)
  satisfied : ∀ r by_, (s.queue.entryOf r).state = .satisfied by_ →
    by_ ∈ candidatesOf sortedCandidates r ∧ s.tracker.map.value by_ = some true
  frontier : ∀ r candidate vs count, (s.queue.entryOf r).state = .frontier candidate vs count →
    (∀ c ∈ candidatesOf sortedCandidates r, s.tracker.map.value c ≠ some true) ∧
      IsFrontier s.tracker.map.value (walkOrder (r.versionSets P) (sortedCandidates.getD r []))
        candidate vs count

/-- **The decide queue never loses an eligible clause.** In every state of a run whose trail is the one of
    the latest synchronisation the queue is consistent, and a selection returns unless some eligible clause
    has false candidates only. -/
theorem QueueState.Reachable.consistent (h : s.Reachable P sortedCandidates) (hs : s.synced = true) :
    s.Consistent P sortedCandidates ∧
      ∀ {F : Type} (A : ActivityParams F) (nameActivity : IndexMap N F) (maxActivity : F),
        Undecided sortedCandidates s.tracker.map.value s.disjunctions s.queue →
        (s.queue.nextDecision P A s.tracker.map.value sortedCandidates s.disjunctions nameActivity
          maxActivity).isSome := by
  have hfresh := h.fresh hs
  have hmarked := h.inv.marked
  refine ⟨⟨fun id c hc hel => ?_, hfresh.indexed.hotQueued, fun id c hc => ?_, fun r by_ hst => ?_,
    fun r candidate vs count hst => ?_⟩, fun {F} A nameActivity maxActivity hund => ?_⟩
  · refine (hfresh.covered id c hc hel.1 trivial).resolve_right fun ⟨by_, hb⟩ => ?_
    obtain ⟨hcand, hv, -⟩ := hfresh.cached.satisfied _ by_ hb
    exact hel.2 by_ hcand hv
  · rw [hfresh.indexed.hot id c hc]
    constructor
    · rintro ⟨c', hc', name, hn, hh⟩
      rw [hc, Option.some.injEq] at hc'
      exact ⟨name, hc' ▸ hn, (hmarked name).mp hh⟩
    · rintro ⟨name, hn, hm⟩
      exact ⟨c, hc, name, hn, (hmarked name).mpr hm⟩
  · exact ⟨(hfresh.cached.satisfied r by_ hst).1, (hfresh.cached.satisfied r by_ hst).2.1⟩
  · have hw := (hfresh.cached.frontier r candidate vs count hst).1
    have haligned := hfresh.alignedEntry r (hfresh.cached.registered r (by rw [hst]; simp))
    have hall : ∀ e ∈ walkOrder (r.versionSets P) (sortedCandidates.getD r []),
        s.tracker.map.value e.2 ≠ some true := by
      intro e he hv
      obtain ⟨e', -, -, hw'⟩ := walk_true ⟨e, he, hv⟩ none
      rw [hw] at hw'
      cases hw'
    refine ⟨fun c hc hv => ?_, ?_⟩
    · obtain ⟨vs', he⟩ := walkOrder_of_mem haligned hc
      exact hall _ he hv
    · rcases walk_none hall with ⟨hw', -⟩ | ⟨candidate', vs', count', hw', hfr⟩
      · rw [hw] at hw'
        cases hw'
      · rw [hw, Option.some.injEq, RequirementState.frontier.injEq] at hw'
        obtain ⟨rfl, rfl, rfl⟩ := hw'
        exact hfr
  · have hnext := hfresh.nextDecision A nameActivity maxActivity
    cases hn : s.queue.nextDecision P A s.tracker.map.value sortedCandidates s.disjunctions nameActivity
      maxActivity with
    | none =>
        rw [hn] at hnext
        exact absurd hund hnext
    | some result => rfl

end Run

/-! ## A sample run -/

/-- One package with two candidates, and one requirement on it. -/
def QueueState.sampleBox : BundleBox where
  packages := [{ candidates := [0, 1] }]
  versionSets := [(0, [0, 1])]

def QueueState.sampleCandidates : IndexMap Requirement (List (List VariableId)) :=
  ⟨[(.single 0, [[1, 2]])]⟩

/-- The root is installed, its requirement is registered, and the queue is synchronised. -/
def QueueState.sample : QueueState Nat :=
  let tracker : DecisionTracker := ({} : DecisionTracker).push ⟨VariableId.root, true, 0⟩ 1
  let queue := ({ hotOnly := true } : DecideQueue Nat).registerClause VariableId.root (.single 0) none 1
    [0] [] none
  { queue := queue.sync 0 tracker.stack tracker.map.value
    tracker := tracker.takeSyncFloor.2
    synced := true }

theorem QueueState.sample_reachable :
    QueueState.sample.Reachable QueueState.sampleBox.provider QueueState.sampleCandidates := by
  refine ⟨true, .tail (.tail (.single (.registerClause VariableId.root (.single 0) none 1
    (fun d hd => by cases hd) rfl)) (.tryAddDecision ⟨VariableId.root, true, 0⟩ 1 true _ rfl)) ?_⟩
  exact .sync 0 QueueState.sample.tracker rfl

theorem QueueState.sample_undecided :
    Undecided QueueState.sampleCandidates QueueState.sample.tracker.map.value
      QueueState.sample.disjunctions QueueState.sample.queue := by
  intro c hc _
  obtain rfl := List.mem_singleton.mp (show c ∈ [_] from hc)
  exact ⟨1, by decide, by decide⟩

/-- The sample state loses no clause. -/
theorem QueueState.sample_consistent :
    QueueState.sample.Consistent QueueState.sampleBox.provider QueueState.sampleCandidates :=
  (QueueState.sample_reachable.consistent rfl).1

end Resolvo
