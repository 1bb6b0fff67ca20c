import Resolvo.Model.Clause

/-!
# `Spec.Selection` — what a solution of a problem is

A set of solvables, and what it means for it to satisfy a problem: requirements, conditions, constraints,
exclusions, locks and one version per package. Nothing here mentions clauses or the solver.
-/

set_option linter.unusedSectionVars false

namespace Resolvo

variable {N S : Type} [DecidableEq N] [DecidableEq S]

/-- What a provider promises: `filter_candidates` splits the candidates of a package into matching and
    non-matching ones, `sort_candidates` permutes, and the solvables listed for a package are of that
    package. -/
structure DependencyProvider.WellFormed (P : DependencyProvider N S) : Prop where
  matching_mem : ∀ vs, ∀ x ∈ P.matchingCandidates vs,
    x ∈ (P.candidatesOf (P.versionSetName vs)).candidates
  nonMatching_mem : ∀ vs, ∀ x ∈ P.nonMatchingCandidates vs,
    x ∈ (P.candidatesOf (P.versionSetName vs)).candidates
  split : ∀ vs, ∀ x ∈ (P.candidatesOf (P.versionSetName vs)).candidates,
    x ∈ P.matchingCandidates vs ↔ x ∉ P.nonMatchingCandidates vs
  sort_perm : ∀ l, (P.sortCandidates l).Perm l
  candidate_name : ∀ name, ∀ x ∈ (P.candidatesOf name).candidates, P.solvableName x = name
  excluded_name : ∀ name, ∀ e ∈ (P.candidatesOf name).excluded, P.solvableName e.1 = name

section Selection

variable (P : DependencyProvider N S) (problem : Problem S)

/-- `p` declares the requirement. -/
def Requires (p : SolvableIdOrRoot S) (r : ConditionalRequirement) : Prop :=
  ∃ deps, P.dependenciesOf problem p = .known deps ∧ r ∈ deps.requirements

/-- `p` declares the constraint. -/
def Constrains (p : SolvableIdOrRoot S) (vs : VersionSetId) : Prop :=
  ∃ deps, P.dependenciesOf problem p = .known deps ∧ vs ∈ deps.constrains

/-- No requirement of the problem or of a solvable carries a condition. -/
def Unconditional : Prop := ∀ p r, Requires P problem p r → r.condition = none

variable (sel : Set S)

/-- The root and the selected solvables. -/
def Selected : SolvableIdOrRoot S → Prop
  | .root => True
  | .solvable x => x ∈ sel

/-- Some candidate that matches the requirement is selected. -/
def HasCandidate (requirement : Requirement) : Prop :=
  ∃ vs ∈ requirement.versionSets P, ∃ x ∈ P.matchingCandidates vs, x ∈ sel

/-- A condition tree evaluated on a selection. -/
def Condition.Holds : Condition → Prop
  | .requirement vs => ∃ x ∈ P.matchingCandidates vs, x ∈ sel
  | .binary .and lhs rhs => lhs.Holds ∧ rhs.Holds
  | .binary .or lhs rhs => lhs.Holds ∨ rhs.Holds

/-- The condition of a requirement is false, or one of its candidates is selected. -/
def RequirementHolds (r : ConditionalRequirement) : Prop :=
  (∀ c, r.condition = some c → (P.resolveCondition c).Holds P sel) → HasCandidate P sel r.requirement

/-- **A selection that satisfies the problem.** -/
structure Valid : Prop where
  requirements : ∀ p, Selected sel p → ∀ r, Requires P problem p r → RequirementHolds P sel r
  known : ∀ x ∈ sel, ∃ deps, P.getDependencies x = .known deps
  constraints : ∀ p, Selected sel p → ∀ vs, Constrains P problem p vs →
    ∀ x ∈ P.nonMatchingCandidates vs, x ∉ sel
  excluded : ∀ name, ∀ e ∈ (P.candidatesOf name).excluded, e.1 ∉ sel
  locked : ∀ name locked, (P.candidatesOf name).locked = some locked →
    ∀ x ∈ (P.candidatesOf name).candidates, x ∈ sel → x = locked
  single : ∀ x ∈ sel, ∀ y ∈ sel, P.solvableName x = P.solvableName y →
    (P.candidatesOf (P.solvableName x)).allowMultiple = false → x = y

end Selection

/-! ## Requirements and conditions -/

namespace DependencyProvider.WellFormed

variable {P : DependencyProvider N S}

/-- Sorting, and moving the favored candidate to the front, keep the matching candidates. -/
theorem mem_sortedCandidates (h : P.WellFormed) {vs : VersionSetId} {x : S} :
    x ∈ P.sortedCandidates vs ↔ x ∈ P.matchingCandidates vs := by
  have hsort : x ∈ P.sortCandidates (P.matchingCandidates vs) ↔ x ∈ P.matchingCandidates vs :=
    (h.sort_perm _).mem_iff
  simp only [sortedCandidates]
  split
  · next favored _ =>
      split
      · next pos hpos =>
          obtain ⟨hlt, hfav, -⟩ := List.findIdx?_eq_some_iff_getElem.mp hpos
          have hfav' : (P.sortCandidates (P.matchingCandidates vs))[pos] = favored := by
            simpa using hfav
          rw [← hsort, ← (List.getElem_cons_eraseIdx_perm hlt).mem_iff, hfav']
      · exact hsort
  · exact hsort

theorem solvableName_of_matching (h : P.WellFormed) {vs : VersionSetId} {x : S}
    (hx : x ∈ P.matchingCandidates vs) : P.solvableName x = P.versionSetName vs :=
  h.candidate_name _ x (h.matching_mem vs x hx)

theorem solvableName_of_nonMatching (h : P.WellFormed) {vs : VersionSetId} {x : S}
    (hx : x ∈ P.nonMatchingCandidates vs) : P.solvableName x = P.versionSetName vs :=
  h.candidate_name _ x (h.nonMatching_mem vs x hx)

end DependencyProvider.WellFormed

/-- The disjunctive normal form of a condition holds exactly where the condition does. -/
theorem Condition.holds_iff_toDnf (P : DependencyProvider N S) (sel : Set S) (c : Condition) :
    c.Holds P sel ↔ ∃ conj ∈ c.toDnf, ∀ vs ∈ conj, ∃ x ∈ P.matchingCandidates vs, x ∈ sel := by
  induction c with
  | requirement vs => simp [Condition.Holds, Condition.toDnf]
  | binary op lhs rhs ihl ihr =>
      cases op with
      | or =>
          simp only [Condition.Holds, Condition.toDnf, ihl, ihr, List.mem_append]
          constructor
          · rintro (⟨conj, hc, h⟩ | ⟨conj, hc, h⟩)
            · exact ⟨conj, .inl hc, h⟩
            · exact ⟨conj, .inr hc, h⟩
          · rintro ⟨conj, hc | hc, h⟩
            · exact .inl ⟨conj, hc, h⟩
            · exact .inr ⟨conj, hc, h⟩
      | and =>
          simp only [Condition.Holds, Condition.toDnf, ihl, ihr, List.mem_flatMap, List.mem_map]
          constructor
          · rintro ⟨⟨l, hl, hl'⟩, r, hr, hr'⟩
            refine ⟨l ++ r, ⟨l, hl, r, hr, rfl⟩, fun vs hvs => ?_⟩
            rcases List.mem_append.mp hvs with hvs | hvs
            · exact hl' vs hvs
            · exact hr' vs hvs
          · rintro ⟨conj, ⟨l, hl, r, hr, rfl⟩, h⟩
            exact ⟨⟨l, hl, fun vs hvs => h vs (List.mem_append_left _ hvs)⟩,
              r, hr, fun vs hvs => h vs (List.mem_append_right _ hvs)⟩

end Resolvo
