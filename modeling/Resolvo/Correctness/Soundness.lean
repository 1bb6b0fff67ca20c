import Resolvo.Correctness.Completeness
import Resolvo.Correctness.HingedRuns

/-!
# `Correctness.Soundness` — what a solution satisfies

A run without soft requirements that returns a solution ends with every entry propagated, no clause false,
everything that is selected encoded, and nothing left to decide. Each clause that was encoded for a selected
solvable then says of the selection what the provider said of the solvable. The clauses of a constraint that
several solvables share do so only if the run never stranded the constraint's variable; conditional
requirements are left out, since a condition is decided on candidates that may stay unassigned.
-/

set_option linter.unusedSectionVars false

namespace Resolvo

open Sat Relation SolverState

variable {N S F : Type} [DecidableEq N] [DecidableEq S]

section Soundness

variable {P : DependencyProvider N S} {problem : Problem S} {act : ActivityParams F} {shared : Prop}
  {s : SolverState N S F} {level : Nat}

variable (P problem) in
/-- **What a selection satisfies apart from conditional requirements.** Constraints that exclude many candidates
    count only if `large`. -/
structure Satisfies (large : Prop) (sel : Set S) : Prop where
  requirements : ∀ p, Selected sel p → ∀ r, Requires P problem p r → r.condition = none →
    HasCandidate P sel r.requirement
  known : ∀ x ∈ sel, ∃ deps, P.getDependencies x = .known deps
  constraints : ∀ p, Selected sel p → ∀ vs, Constrains P problem p vs →
    (constrainsAuxEncodingThreshold ≤ (P.nonMatchingCandidates vs).length → large) →
    ∀ x ∈ P.nonMatchingCandidates vs, x ∉ sel
  excluded : ∀ name, ∀ e ∈ (P.candidatesOf name).excluded, e.1 ∉ sel
  locked : ∀ name locked, (P.candidatesOf name).locked = some locked →
    ∀ x ∈ (P.candidatesOf name).candidates, x ∈ sel → x = locked
  single : ∀ x ∈ sel, ∀ y ∈ sel, P.solvableName x = P.solvableName y →
    (P.candidatesOf (P.solvableName x)).allowMultiple = false → x = y

variable (P problem) in
/-- Every constraint excludes too few candidates for an encoding that solvables share. -/
def NarrowConstraints : Prop :=
  ∀ p vs, Constrains P problem p vs → (P.nonMatchingCandidates vs).length < constrainsAuxEncodingThreshold

/-- Without conditions this is a valid selection. -/
theorem Satisfies.valid {sel : Set S} (h : Satisfies P problem (¬ NarrowConstraints P problem) sel)
    (hu : Unconditional P problem) : Valid P problem sel where
  requirements := fun p hp r hr _ => h.requirements p hp r hr (hu p r hr)
  known := h.known
  constraints := by
    intro p hp vs hvs
    refine h.constraints p hp vs hvs fun hlong hnarrow => ?_
    have hshort := hnarrow p vs hvs
    omega
  excluded := h.excluded
  locked := h.locked
  single := h.single

/-! ## The selection -/

/-- The solvables that are reported are those whose variable is true. -/
theorem mem_chosenSolvables (hwf : s.variableMap.WF) (ht : s.decisionTracker.WF) {x : S} :
    x ∈ s.chosenSolvables ↔ ∃ v, s.IsVar (.solvable x) v ∧ s.value v = some true := by
  simp only [chosenSolvables, List.mem_filterMap, Option.ite_none_right_eq_some]
  constructor
  · rintro ⟨d, hd, hvalue, hx⟩
    refine ⟨d.var, hwf.asSolvable_iff.mp hx, (ht.value_iff _ _).mpr ⟨d, hd, rfl, hvalue⟩⟩
  · rintro ⟨v, hx, hv⟩
    obtain ⟨d, hd, rfl, hvalue⟩ := (ht.value_iff _ _).mp hv
    exact ⟨d, hd, hvalue, hwf.asSolvable_iff.mpr hx⟩

namespace SolverState.Solved

variable {p : SolvableIdOrRoot S} {v : VariableId}

theorem vars (h : s.Solved P problem shared level) : s.variableMap.WF := h.ok.ok.tables.vars

theorem mem_chosen (h : s.Solved P problem shared level) {x : S} :
    x ∈ s.chosenSolvables ↔ ∃ v, s.IsVar (.solvable x) v ∧ s.value v = some true :=
  mem_chosenSolvables h.vars h.vigilant.tracker

/-- What is selected has a true variable, and it is encoded. -/
theorem selected (h : s.Solved P problem shared level) (hp : Selected {x | x ∈ s.chosenSolvables} p) :
    ∃ v, s.IsVar p v ∧ s.value v = some true ∧ p ∈ s.clausesAddedForSolvable := by
  have htrue : ∃ v, s.IsVar p v ∧ s.value v = some true := by
    cases p with
    | root => exact ⟨VariableId.root, rfl, h.vigilant.tracker.assignedValue_iff.mpr ⟨_, h.installed.mem, rfl⟩⟩
    | solvable x => exact h.mem_chosen.mp hp
  obtain ⟨v, hv, hvalue⟩ := htrue
  refine ⟨v, hv, hvalue, ?_⟩
  by_contra hnot
  -- otherwise the solvable would be encoded next
  obtain ⟨d, hd, rfl, htrue⟩ := (h.vigilant.tracker.value_iff _ _).mp hvalue
  have hmem : p ∈ Config.newSolvables s := by
    unfold Config.newSolvables
    refine List.mem_filterMap.mpr ⟨d, hd, ?_⟩
    rw [if_pos htrue, h.vars.asSolvableOrRoot_iff.mpr hv]
    dsimp only
    rw [if_neg hnot]
  rw [h.encoded] at hmem
  cases hmem

/-- If one literal of a clause is false, the other one is not. -/
theorem open_other (h : s.Solved P problem shared level) {id : ClauseId} {kind : Clause N} {a b : Literal}
    (hk : s.clauses[id]? = some kind) (hroot : kind ≠ .installRoot)
    (hlits : ∀ l ∈ s.kindLiterals kind, l = a ∨ l = b) (ha : s.decisionTracker.eval a = some false) :
    s.decisionTracker.eval b ≠ some false := by
  obtain ⟨l, hl, hopen⟩ := h.open_clause hk hroot
  rw [literals_of_kind hk] at hl
  rcases hlits l hl with rfl | rfl
  · exact absurd ha hopen
  · exact hopen

/-- A true parent has a true candidate. -/
theorem candidate (h : s.Solved P problem shared level) (hP : P.WellFormed) {id : ClauseId} {r : Requirement}
    (hk : s.clauses[id]? = some (.requires v none r)) (hv : s.value v = some true) :
    HasCandidate P {x | x ∈ s.chosenSolvables} r := by
  have hexists : ∃ w ∈ DecideQueue.candidatesOf s.requirementToSortedCandidates r, s.value w = some true := by
    by_contra hno
    push Not at hno
    exact h.decided id v none r hk ⟨hv, (fun l hl => by cases hl), hno⟩
  obtain ⟨w, hw, hwtrue⟩ := hexists
  obtain ⟨⟨vars, hvars⟩, -⟩ := h.vigilant.arena.closed id _ hk
  have hcandidates : s.CandidateVars P r vars := h.ok.ok.tables.candidates r vars hvars
  rw [DecideQueue.candidatesOf, IndexMap.getD, hvars, Option.getD_some] at hw
  obtain ⟨vs, hvs, x, hx, hxw⟩ := (CandidateVars.mem_iff hP hcandidates).mp hw
  exact ⟨vs, hvs, x, hx, h.mem_chosen.mpr ⟨w, hxw, hwtrue⟩⟩

theorem requirements (h : s.Solved P problem shared level) (hP : P.WellFormed)
    (hp : Selected {x | x ∈ s.chosenSolvables} p) {r : ConditionalRequirement} (hr : Requires P problem p r)
    (hcond : r.condition = none) : HasCandidate P {x | x ∈ s.chosenSolvables} r.requirement := by
  obtain ⟨v, hv, hvalue, hmem⟩ := h.selected hp
  obtain ⟨v', hv', henc⟩ := (((h.ok.running.dependencies hmem).requirements r hr).1 hcond).done
  obtain rfl : v = v' := Option.some.inj (hv.symm.trans hv')
  rcases henc with ⟨id, hk, -⟩ | ⟨-, gate, id, hgate, hk, hrequirer⟩
  · exact h.candidate hP hk hvalue
  · -- the gate is assigned, and it is not false
    have hassigned : s.value gate ≠ none := by
      obtain ⟨l, hl, hm, -⟩ := IndexMap.mem_getD_nil hrequirer
      exact h.gates _ hl _ hm hvalue
    have hopen := h.open_other (a := negative v) (b := positive gate) hk (fun h => by cases h)
      (fun l hl => (List.mem_pair.mp hl).symm) (eval_negative.mpr hvalue)
    obtain ⟨id', hk'⟩ := h.ok.ok.gateClauses r.requirement gate hgate
    refine h.candidate hP hk' ?_
    cases hgatevalue : s.value gate with
    | none => exact absurd hgatevalue hassigned
    | some b =>
        cases b with
        | true => rfl
        | false => exact absurd (eval_positive.mpr hgatevalue) hopen

/-- A solvable with an assertion against it is not selected. -/
theorem not_excluded (h : s.Solved P problem shared level) {x : S} (hx : x ∈ s.chosenSolvables) :
    ¬ Excludes s (.solvable x) := by
  rintro ⟨v, id, hv, hassert⟩
  obtain ⟨w, hw, hvalue⟩ := h.mem_chosen.mp hx
  obtain rfl : w = v := Option.some.inj (hw.symm.trans hv)
  have htrue := h.assertions id (negative w) ⟨(h.vigilant.arena.assertions _ hassert).2, .inl hassert⟩
  rw [eval_negative.mpr hvalue] at htrue
  cases htrue

/-- The package of a selected solvable was processed. -/
theorem package (h : s.Solved P problem shared level) {x : S} (hx : x ∈ s.chosenSolvables) :
    PackageEncoded P s (P.solvableName x) := by
  obtain ⟨v, hv, hvalue⟩ := h.mem_chosen.mp hx
  exact h.ok.running.package (h.ok.trail.positives trivial x v hv hvalue).1

theorem constraints (h : s.Solved P problem shared level) (hp : Selected {x | x ∈ s.chosenSolvables} p)
    {vs : VersionSetId} (hvs : Constrains P problem p vs)
    (hlarge : constrainsAuxEncodingThreshold ≤ (P.nonMatchingCandidates vs).length → shared) {x : S}
    (hx : x ∈ P.nonMatchingCandidates vs) : x ∉ s.chosenSolvables := by
  intro hchosen
  obtain ⟨w, hw, hwvalue⟩ := h.mem_chosen.mp hchosen
  obtain ⟨v, hv, hvalue, hmem⟩ := h.selected hp
  obtain ⟨v', hv', henc⟩ := ((h.ok.running.dependencies hmem).constrains vs hvs).done
  obtain rfl : v = v' := Option.some.inj (hv.symm.trans hv')
  rcases henc with hall | ⟨hlong, aux, id, haux, hk⟩
  · obtain ⟨f, id, hf, hk⟩ := hall x hx
    obtain rfl : w = f := Option.some.inj (hw.symm.trans hf)
    have hopen := h.open_other (a := negative v) (b := negative w) hk (fun h => by cases h)
      (fun l hl => List.mem_pair.mp hl) (eval_negative.mpr hvalue)
    exact hopen (eval_negative.mpr hwvalue)
  · -- both imply something of the variable of the constraint
    obtain ⟨f, id', hf, hk'⟩ := h.ok.ok.auxClauses vs aux haux x hx
    obtain rfl : w = f := Option.some.inj (hw.symm.trans hf)
    exact h.apart h.hinged ⟨id, _, hk, rfl, fun _ => hlarge hlong⟩ ⟨id', _, hk', rfl, fun _ => hlarge hlong⟩
      hvalue hwvalue

/-- **A solved problem is satisfied by what was selected.** -/
theorem satisfies (h : s.Solved P problem shared level) (hP : P.WellFormed) :
    Satisfies P problem shared {x | x ∈ s.chosenSolvables} where
  requirements := fun p hp r hr hcond => h.requirements hP hp hr hcond
  known := by
    intro x hx
    cases hdeps : P.getDependencies x with
    | known deps => exact ⟨deps, rfl⟩
    | unknown reason =>
        obtain ⟨v, -, -, hmem⟩ := h.selected (p := .solvable x) hx
        exact absurd ((h.ok.running.dependencies hmem).unknown reason hdeps) (h.not_excluded hx)
  constraints := fun p hp vs hvs hlarge x hx => h.constraints hp hvs hlarge hx
  excluded := by
    intro name e he hx
    have hpackage := h.package hx
    rw [hP.excluded_name name e he] at hpackage
    exact h.not_excluded hx (hpackage.excluded e he)
  locked := by
    intro name locked hl x hx hchosen
    by_contra hne
    have hpackage := h.package hchosen
    rw [hP.candidate_name name x hx] at hpackage
    obtain ⟨v, lockedVar, id, hv, hk⟩ := hpackage.locked locked hl x hx hne
    obtain ⟨w, hw, hvalue⟩ := h.mem_chosen.mp hchosen
    obtain rfl : w = v := Option.some.inj (hw.symm.trans hv)
    -- the root implies that the other candidates are out
    have hroot : s.value VariableId.root = some true :=
      h.vigilant.tracker.assignedValue_iff.mpr ⟨_, h.installed.mem, rfl⟩
    have hopen := h.open_other (a := negative VariableId.root) (b := negative w) hk (fun h => by cases h)
      (fun l hl => (List.mem_pair.mp hl).symm) (eval_negative.mpr hroot)
    exact hopen (eval_negative.mpr hvalue)
  single := by
    intro x hx y hy hname hmulti
    obtain ⟨v, hv, hvalue⟩ := h.mem_chosen.mp hx
    obtain ⟨w, hw, hwvalue⟩ := h.mem_chosen.mp hy
    have hone : s.OneVersion P := h.oneVersion h.hinged h.ok trivial
    obtain rfl := hone x y v w hv hw hvalue hwvalue hname hmulti
    exact h.vars.lookup_inj hv hw

end SolverState.Solved

/-! ## Runs that end with a solution -/

namespace Config

/-- A solution is what was selected in a solved problem. -/
theorem HingeState.solution {c : Config N S F} (h : c.HingeState P problem shared) {solvables : List S}
    (hout : c.outcome = some (.solution solvables)) :
    solvables = c.state.chosenSolvables ∧ ∃ level, c.state.Solved P problem shared level := by
  unfold outcome at hout
  split at hout
  · next outcome hpoint =>
      obtain rfl := Option.some.inj hout
      simp only [HingeState, hpoint] at h
      exact h
  · cases hout

theorem run_satisfies (hP : P.WellFormed) (hsoft : problem.softRequirements = []) (large : Prop)
    (sched : Nat → Choice S) (n : Nat)
    (hun : large → ∀ m < n, (run P act problem sched m).EncodesUnstranded P (sched m)) {solvables : List S}
    (hout : (run P act problem sched n).outcome = some (.solution solvables)) :
    Satisfies P problem large {x | x ∈ solvables} := by
  obtain ⟨rfl, level, hsolved⟩ := (run_hinge hP hsoft sched n hun).solution hout
  exact hsolved.satisfies hP

/-- **What every solution of a problem without soft requirements satisfies**, whatever the environment decides:
    the requirements without a condition, the constraints that exclude few candidates, exclusions, locks, and one
    version of each package. -/
theorem solution_satisfies (hP : P.WellFormed) (hsoft : problem.softRequirements = []) (sched : Nat → Choice S)
    (n : Nat) {solvables : List S} (hout : (run P act problem sched n).outcome = some (.solution solvables)) :
    Satisfies P problem False {x | x ∈ solvables} :=
  run_satisfies hP hsoft False sched n (fun hf => hf.elim) hout

/-- **A solution of a problem without conditions is valid**, if every constraint is narrow or none is stranded. -/
theorem solution_valid (hP : P.WellFormed) (hsoft : problem.softRequirements = [])
    (hu : Unconditional P problem) (sched : Nat → Choice S) (n : Nat)
    (hun : ¬ NarrowConstraints P problem →
      ∀ m < n, (run P act problem sched m).EncodesUnstranded P (sched m)) {solvables : List S}
    (hout : (run P act problem sched n).outcome = some (.solution solvables)) :
    Valid P problem {x | x ∈ solvables} :=
  (run_satisfies hP hsoft (¬ NarrowConstraints P problem) sched n hun hout).valid hu

end Config

end Soundness

/-! ## A sample run -/

namespace SolvedSample

/-- The first candidate of package 1 excludes the only version of package 2 that the first candidate of package
    0 admits. -/
def box : BundleBox where
  packages := [{ candidates := [1, 2] }, { candidates := [3, 4] },
    { candidates := [5, 6, 7], excluded := [(7, 0)] }]
  versionSets := [(0, [1, 2]), (1, [3, 4]), (2, [5, 6, 7]), (2, [5]), (2, [6])]
  dependencies := [(1, .known { requirements := [⟨none, .single 2⟩], constrains := [4] }),
    (3, .known { constrains := [3] })]

def problem : Problem Nat := { requirements := [⟨none, .single 0⟩, ⟨none, .single 1⟩] }

/-- The run of the default runtime; it backtracks over the first candidate of package 1. -/
def sample (n : Nat) : Config Nat Nat Rat :=
  Config.run box.provider defaultActivity problem (nonYielding box.provider) n

theorem wellFormed : box.provider.WellFormed := BundleBox.wellFormed (by decide)

/-- No package has enough candidates for a shared encoding. -/
theorem narrow : NarrowConstraints box.provider problem := by
  intro p vs _
  have hfew : ∀ name, (box.provider.candidatesOf name).candidates.length < constrainsAuxEncodingThreshold := by
    intro name
    rcases name with _ | _ | _ | name
    · decide
    · decide
    · decide
    · exact Nat.succ_pos 3
  exact Nat.lt_of_le_of_lt (List.length_filter_le _ _) (hfew _)

theorem solution : (sample 65).outcome = some (.solution [1, 6, 4]) := by decide +kernel

end SolvedSample

namespace Config

theorem sample_solution_satisfies :
    Satisfies SolvedSample.box.provider SolvedSample.problem False {x | x ∈ [1, 6, 4]} :=
  solution_satisfies SolvedSample.wellFormed rfl (nonYielding SolvedSample.box.provider) 65 SolvedSample.solution

theorem sample_solution_valid :
    Valid SolvedSample.box.provider SolvedSample.problem {x | x ∈ [1, 6, 4]} :=
  solution_valid SolvedSample.wellFormed rfl (BundleBox.unconditional (by decide))
    (nonYielding SolvedSample.box.provider) 65 (fun hn => absurd SolvedSample.narrow hn) SolvedSample.solution

end Config

end Resolvo
