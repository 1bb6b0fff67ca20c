import Resolvo.Correctness.Runs

/-!
# `Correctness.Decisions` — explicit requirements are decided first

The decide queue orders clauses by the position of their parent, and a parent gets its position when its
first clause is registered. A clause of the root wins over every clause behind it, so the requirements of the
problem come first as long as no eligible clause is before the root's. That can fail: a root whose only
requirements are conditional gets its position when the first condition fires.
-/

set_option linter.unusedSectionVars false

namespace Resolvo

open SolverState

variable {N S F : Type} [DecidableEq N] [DecidableEq S]

section Explicit

variable {P : DependencyProvider N S} {problem : Problem S} {act : ActivityParams F}

/-- If a requires clause of the root is eligible, the decision belongs to one. -/
def DecidesExplicit (P : DependencyProvider N S) (act : ActivityParams F) (s : SolverState N S F) : Prop :=
  ∀ (id : ClauseId) condition r, s.clauses[id]? = some (.requires VariableId.root condition r) →
    s.Eligible VariableId.root condition r → ∀ decision s', s.decide P act = some (decision, s') →
      ∃ d condition' r', decision = some d ∧
        s.clauses[d.clauseId]? = some (.requires VariableId.root condition' r')

theorem QueueOk.decidesExplicit {s : SolverState N S F} (h : QueueOk P s) (hfirst : s.RootFirst) :
    DecidesExplicit P act s := by
  intro id condition r hk hel decision s' hd
  obtain ⟨-, -, hnone, hsome⟩ := h.decide hd
  cases decision with
  | none => exact absurd hel (hnone rfl id _ condition r hk)
  | some d =>
      obtain ⟨⟨⟨condition', r', hk', -⟩, -⟩, hroot⟩ := hsome d rfl
      refine ⟨d, condition', r', rfl, ?_⟩
      rw [hk', hroot hfirst ⟨id, condition, r, hk, hel⟩]

/-- **Explicit requirements are decided first** in every run, wherever no eligible clause belongs to a parent
    that entered the queue before the root. -/
theorem Config.run_decidesExplicit (hP : P.WellFormed) (sched : Nat → Choice S) (n : Nat)
    (hpoint : (run P act problem sched n).point = .deciding)
    (hfirst : (run P act problem sched n).state.RootFirst) :
    DecidesExplicit P act (run P act problem sched n).state := by
  have hok : (run P act problem sched n).Ok P problem RunFacts.any :=
    run_ok hP (fun h => by rcases h with h | h <;> cases h) sched n fun h => by cases h
  have hs := hok.state
  rw [StateOk, hpoint] at hs
  exact hs.queue.decidesExplicit hfirst

end Explicit

/-! ## A sample run -/

namespace ExplicitFirst

instance (s : SolverState N S F) (parent : VariableId) (condition : Option DisjunctionId) (r : Requirement) :
    Decidable (s.Eligible parent condition r) :=
  decidable_of_iff (s.value parent = some true ∧
      (∀ l ∈ DecideQueue.conditionLiterals s.disjunctions condition, s.decisionTracker.eval l = some false) ∧
      ∀ v ∈ DecideQueue.candidatesOf s.requirementToSortedCandidates r, s.value v ≠ some true)
    ⟨fun ⟨hp, hc, hv⟩ => ⟨hp, hc, hv⟩, fun ⟨hp, hc, hv⟩ => ⟨hp, hc, hv⟩⟩

instance (s : SolverState N S F) : Decidable s.RootFirst :=
  decidable_of_iff (∀ e ∈ s.requiresEntries, s.Eligible e.2.1 e.2.2.1 e.2.2.2 →
      ∀ pos ∈ s.decideQueue.parentPositions.get? e.2.1,
        ∀ rootPos ∈ s.decideQueue.parentPositions.get? VariableId.root, rootPos ≤ pos)
    ⟨fun h _ _ _ _ hk hel pos rootPos hpos hroot => h _ (mem_requiresEntries.mpr hk) hel pos hpos rootPos hroot,
      fun h _ he hel pos hpos rootPos hroot => h _ _ _ _ (mem_requiresEntries.mp he) hel pos rootPos hpos hroot⟩

/-- The root requires package 0 if package 1 is installed. Package 2 has a candidate with two ways to satisfy
    its requirement, and package 4 cannot be installed. -/
def sampleBox : BundleBox where
  packages := [{ candidates := [1, 2] }, { candidates := [3] },
    { candidates := [4], hintDependenciesAvailable := .all }, { candidates := [5, 6] }, { candidates := [7] },
    { candidates := [8, 9] }, {}]
  versionSets := [(0, [1, 2]), (1, [3]), (2, [4]), (3, [5, 6]), (4, [7]), (6, [])]
  conditions := [.requirement 1]
  dependencies := [(4, .known { requirements := [⟨none, .single 3⟩] }),
    (7, .known { requirements := [⟨none, .single 5⟩] }),
    (8, .known { requirements := [⟨none, .single 1⟩, ⟨none, .single 2⟩, ⟨none, .single 4⟩] }),
    (9, .known { requirements := [⟨none, .single 1⟩, ⟨none, .single 2⟩] })]

/-- The first soft requirement enters package 2 in the queue before the condition of the root fires. -/
def sampleProblem : Problem Nat := { requirements := [⟨some 0, .single 0⟩], softRequirements := [8, 9] }

def sample (n : Nat) : Config Nat Nat Rat :=
  Config.run sampleBox.provider defaultActivity sampleProblem (nonYielding sampleBox.provider) n

theorem sample_deciding {n : Nat}
    (h : (match (sample n).point with | .deciding => true | _ => false) = true) :
    (sample n).point = .deciding := by
  split at h
  · assumption
  · cases h

/-- Once the clause of package 2 is satisfied nothing is in the way of the root's. -/
theorem sample_decidesExplicit : DecidesExplicit sampleBox.provider defaultActivity (sample 70).state :=
  Config.run_decidesExplicit (BundleBox.wellFormed (by decide)) (nonYielding sampleBox.provider) 70
    (sample_deciding (by decide +kernel)) (by decide +kernel)

/-- With a clause of the root eligible, a candidate is decided for the solvable of package 2. -/
theorem sample_not_decidesExplicit :
    ¬ ∀ n, (sample n).point = .deciding → DecidesExplicit sampleBox.provider defaultActivity (sample n).state := by
  intro h
  have hrun : (match (sample 64).point with | .deciding => true | _ => false) = true ∧
      (sample 64).state.clauses[7]? = some (.requires VariableId.root (some 0) (.single 0)) ∧
      (sample 64).state.Eligible VariableId.root (some 0) (.single 0) ∧
      ((sample 64).state.decide sampleBox.provider defaultActivity).map
        (fun d => d.1.map fun d => (sample 64).state.clauses[d.clauseId]?) =
        some (some (some (.requires 3 none (.single 3)))) := by
    decide +kernel
  obtain ⟨hpoint, hclause, heligible, hdecide⟩ := hrun
  cases hd : (sample 64).state.decide sampleBox.provider defaultActivity with
  | none => rw [hd] at hdecide; cases hdecide
  | some result =>
      obtain ⟨d, condition, r, hsome, hk⟩ :=
        h 64 (sample_deciding hpoint) 7 _ _ hclause heligible result.1 result.2 hd
      rw [hd, Option.map_some, hsome, Option.map_some, hk] at hdecide
      simp [VariableId.root] at hdecide

end ExplicitFirst

end Resolvo
