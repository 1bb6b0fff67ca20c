import Resolvo.Model.Solver
import Resolvo.Spec.Selection

/-!
# `Model.BundleBox` — a provider given by tables

The provider of the test-suite keeps its packages, version sets, unions and conditions in tables, sorts
candidates in the order they were added and never fails. Packages, solvables and version sets are numbers
here.
-/

namespace Resolvo

/-- The tables of a `BundleBoxProvider`. -/
structure BundleBox where
  /-- The candidates of each package. -/
  packages : List (Candidates Nat)
  /-- The package of each version set, and the solvables that match. -/
  versionSets : List (Nat × List Nat)
  unions : List (List VersionSetId) := []
  conditions : List Condition := []
  /-- The solvables with dependencies; the others have none. -/
  dependencies : List (Nat × Dependencies) := []

namespace BundleBox

variable (b : BundleBox)

/-- The solvables listed for a package. -/
def listed (c : Candidates Nat) : List Nat := c.candidates ++ c.excluded.map Prod.fst

def solvableName (s : Nat) : Nat :=
  (b.packages.findIdx? fun c => s ∈ listed c).getD b.packages.length

def matching (vs : VersionSetId) : List Nat := ((b.versionSets[vs]?).map Prod.snd).getD []

def provider : DependencyProvider Nat Nat where
  versionSetName vs := ((b.versionSets[vs]?).map Prod.fst).getD b.packages.length
  solvableName := b.solvableName
  versionSetsInUnion u := (b.unions[u]?).getD []
  resolveCondition c := (b.conditions[c]?).getD (.requirement 0)
  filterCandidates candidates vs inverse := candidates.filter fun s => (s ∈ b.matching vs) != inverse
  getCandidates name := b.packages[name]?
  sortCandidates := id
  getDependencies s := ((b.dependencies.find? fun e => e.1 = s).map Prod.snd).getD (.known {})

/-- No solvable is listed for two packages. -/
def Disjoint : Prop :=
  ∀ name ∈ List.range b.packages.length, ∀ s ∈ listed ((b.packages[name]?).getD {}),
    b.solvableName s = name

instance : Decidable b.Disjoint := by unfold Disjoint; infer_instance

/-- Tables without a solvable of two packages make a well-formed provider. -/
theorem wellFormed {b : BundleBox} (h : b.Disjoint) : b.provider.WellFormed where
  matching_mem vs x hx := (List.mem_filter.mp hx).1
  nonMatching_mem vs x hx := (List.mem_filter.mp hx).1
  split := by
    intro vs x hx
    have hfilter : ∀ l inverse, x ∈ b.provider.filterCandidates l vs inverse ↔
        x ∈ l ∧ (x ∈ b.matching vs) != inverse := fun l inverse => List.mem_filter
    rw [DependencyProvider.matchingCandidates, DependencyProvider.nonMatchingCandidates, hfilter, hfilter]
    simp [hx]
  sort_perm l := .refl l
  candidate_name := by
    intro name x hx
    have hlt : name < b.packages.length := by
      by_contra hge
      simp [DependencyProvider.candidatesOf, provider, List.getElem?_eq_none (Nat.le_of_not_lt hge)] at hx
    exact h name (List.mem_range.mpr hlt) x (List.mem_append_left _ hx)
  excluded_name := by
    intro name e he
    have hlt : name < b.packages.length := by
      by_contra hge
      simp [DependencyProvider.candidatesOf, provider, List.getElem?_eq_none (Nat.le_of_not_lt hge)] at he
    exact h name (List.mem_range.mpr hlt) e.1 (List.mem_append_right _ (List.mem_map_of_mem he))

/-- No requirement in the tables carries a condition. -/
def Plain (problem : Problem Nat) : Prop :=
  (∀ r ∈ problem.requirements, r.condition = none) ∧
    ∀ e ∈ b.dependencies, match e.2 with
      | .known deps => ∀ r ∈ deps.requirements, r.condition = none
      | .unknown _ => True

instance (problem : Problem Nat) : Decidable (b.Plain problem) := by
  unfold Plain
  have : ∀ e : Nat × Dependencies, Decidable (match e.2 with
      | .known deps => ∀ r ∈ deps.requirements, r.condition = none
      | .unknown _ => True) := by
    rintro ⟨s, deps | reason⟩ <;> dsimp only <;> infer_instance
  infer_instance

theorem unconditional {b : BundleBox} {problem : Problem Nat} (h : b.Plain problem) :
    Unconditional b.provider problem := by
  rintro p r ⟨deps, hdeps, hr⟩
  cases p with
  | root =>
      obtain rfl := Dependencies.known.inj hdeps
      exact h.1 r hr
  | solvable x =>
      simp only [DependencyProvider.dependenciesOf, provider] at hdeps
      cases hfind : b.dependencies.find? fun e => e.1 = x with
      | none =>
          simp only [hfind, Option.map_none, Option.getD_none, Dependencies.known.injEq] at hdeps
          rw [← hdeps] at hr
          cases hr
      | some e =>
          simp only [hfind, Option.map_some, Option.getD_some] at hdeps
          have he := h.2 e (List.mem_of_find?_eq_some hfind)
          rw [hdeps] at he
          exact he r hr

end BundleBox

/-- Activity scores as rational numbers, with the parameters of `Solver::new`. -/
def defaultActivity : ActivityParams Rat where
  zero := 0
  add := (· + ·)
  mul := (· * ·)
  gt a b := decide (b < a)
  ge a b := decide (b ≤ a)
  eq a b := decide (a = b)
  activityAdd := 1
  activityDecay := 19 / 20

end Resolvo
