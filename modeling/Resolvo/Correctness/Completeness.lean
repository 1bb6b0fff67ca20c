import Resolvo.Correctness.Exact
import Resolvo.Correctness.HardRuns

/-!
# `Correctness.Completeness` — what an unsolvable problem means

A run without soft requirements that ends as unsolvable reports clauses of the problem that contradict each
other. A selection that is valid for the problem would satisfy all of them: its solvables are assigned true,
and every auxiliary variable what it stands for. So there is none.
-/

set_option linter.unusedSectionVars false

namespace Resolvo

open Sat Relation SolverState

variable {N S F : Type} [DecidableEq N] [DecidableEq S]

section Completeness

variable {P : DependencyProvider N S} {problem : Problem S} {act : ActivityParams F} {A : RunFacts}
  {s : SolverState N S F} {level : Nat} {sel : Set S}

/-! ## The assignment of a selection -/

open Classical in
/-- The root and the variables of the selected solvables are true. -/
noncomputable def assigned (s : SolverState N S F) (sel : Set S) (v : VariableId) : Bool :=
  decide (∃ p, Selected sel p ∧ s.IsVar p v)

theorem assigned_iff {v : VariableId} : assigned s sel v = true ↔ ∃ p, Selected sel p ∧ s.IsVar p v := by
  simp only [assigned, decide_eq_true_eq]

theorem assigned_root (s : SolverState N S F) (sel : Set S) : assigned s sel VariableId.root = true :=
  assigned_iff.mpr ⟨.root, trivial, rfl⟩

/-- Its selection is the part of the selection that has variables. -/
theorem mem_selection_assigned (hs : s.variableMap.WF) {x : S} :
    x ∈ selection s (assigned s sel) ↔ x ∈ sel ∧ ∃ v, s.IsVar (.solvable x) v := by
  constructor
  · rintro ⟨v, hv, hτ⟩
    obtain ⟨p, hp, hpv⟩ := assigned_iff.mp hτ
    obtain rfl := hs.varOf_inj hpv hv
    exact ⟨hp, v, hv⟩
  · rintro ⟨hx, v, hv⟩
    exact ⟨v, hv, assigned_iff.mpr ⟨.solvable x, hx, hv⟩⟩

theorem selected_of_assigned (hs : s.variableMap.WF) {p : SolvableIdOrRoot S}
    (h : Selected (selection s (assigned s sel)) p) : Selected sel p := by
  cases p with
  | root => trivial
  | solvable x => exact ((mem_selection_assigned hs).mp h).1

/-! ## A valid selection respects what was encoded -/

/-- The candidates of an encoded requirement have variables. -/
theorem EncodesRequirement.candidate_var (hP : P.WellFormed) {enc : Encoder N S F}
    (hok : EncOk P problem (A.Ordered P problem) enc) (ha : enc.state.Arena) {v : VariableId}
    {r : Requirement} (h : EncodesRequirement enc.state v none r) {vs : VersionSetId}
    (hvs : vs ∈ r.versionSets P) {x : S} (hx : x ∈ P.matchingCandidates vs) :
    ∃ w, enc.state.IsVar (.solvable x) w := by
  have hclosed : ∃ parent, enc.state.Closed (.requires parent none r) := by
    rcases h with ⟨id, hc, -⟩ | ⟨-, gate, id, hgate, hc, -⟩
    · exact ⟨v, ha.closed id _ hc⟩
    · -- the candidates were looked up for the clause of the gate
      obtain ⟨id', hc'⟩ := hok.gateClauses r gate hgate
      exact ⟨gate, ha.closed id' _ hc'⟩
  obtain ⟨parent, ⟨vars, hvars⟩, -⟩ := hclosed
  have hcandidates : List.Forall₂ (AreVars enc.state) ((r.versionSets P).map P.sortedCandidates) vars :=
    hok.tables.candidates r vars hvars
  obtain ⟨l, -, hcl⟩ := List.Forall₂.exists_of_mem_left hcandidates (List.mem_map_of_mem hvs)
  obtain ⟨w, -, hxw⟩ := List.Forall₂.exists_of_mem_left hcl (hP.mem_sortedCandidates.mpr hx)
  exact ⟨w, hxw⟩

/-- **A valid selection respects what was encoded.** -/
theorem Running.respects_of_valid (hP : P.WellFormed) (h : Running P problem A (.idle level s))
    (hu : Unconditional P problem) (hvalid : Valid P problem sel) :
    Respects P problem s (selection s (assigned s sel)) := by
  have hs := h.good.ok.tables.vars
  have hmem : ∀ x ∈ selection s (assigned s sel), x ∈ sel := fun x hx =>
    ((mem_selection_assigned hs).mp hx).1
  constructor
  case requirements =>
    intro p hp hsel r hr
    obtain ⟨vs, hvs, x, hx, hxsel⟩ := hvalid.requirements p (selected_of_assigned hs hsel) r hr
      fun c hc => by rw [hu p r hr] at hc; cases hc
    obtain ⟨v, -, henc⟩ := (((h.dependencies hp).requirements r hr).1 (hu p r hr)).done
    have hvar := EncodesRequirement.candidate_var hP h.good.ok h.good.trail.core.arena henc hvs hx
    exact ⟨vs, hvs, x, hx, (mem_selection_assigned hs).mpr ⟨hxsel, hvar⟩⟩
  case constraints =>
    intro p _ hsel vs hvs x hx hxsel
    exact hvalid.constraints p (selected_of_assigned hs hsel) vs hvs x hx (hmem x hxsel)
  case known => exact fun x hx _ => hvalid.known x (hmem x hx)
  case excluded => exact fun name _ e he hmem' => hvalid.excluded name e he (hmem _ hmem')
  case locked => exact fun name _ locked hl x hx hxsel => hvalid.locked name locked hl x hx (hmem x hxsel)
  case single =>
    intro name hmulti x hx y hy hxc hyc
    -- what the at-most-one encoding of a package knows is of this package
    have hname : ∀ z, Candidate s name z → P.solvableName z = name := by
      rintro z ⟨v, hv, hzv⟩
      cases hget : s.atMostOneTrackers.get? name with
      | none =>
          rw [IndexMap.getD, hget] at hv
          cases hv
      | some tr =>
          rw [IndexMap.getD, hget] at hv
          obtain ⟨z', hz', hv'⟩ := (h.good.ok.tables.trackers name tr hget).vars v hv
          obtain rfl := hs.lookup_inj hzv hv'
          exact hP.candidate_name name z hz'
    have hxname := hname x hxc
    refine hvalid.single x (hmem x hx) y (hmem y hy) (hxname.trans (hname y hyc).symm) ?_
    rw [hxname]
    exact hmulti

/-- **The clauses of the problem hold for a valid selection**, with the auxiliary variables set to what they
    stand for. -/
theorem Running.models_of_valid (hP : P.WellFormed) (hA : A.Ordered P problem)
    (h : Running P problem A (.idle level s)) (hu : Unconditional P problem) (hvalid : Valid P problem sel) :
    s.Models (extend P s (assigned s sel)) := by
  rintro id ⟨kind, hk, hroot, hlearnt⟩
  have hok : EncOk P problem True (Encoder.idle level s) := by
    have := h.good.ok
    rwa [eq_true hA] at this
  rw [literals_of_kind hk]
  exact hok.extend_holds hP h.good.trail.core.arena (assigned_root s sel)
    (h.respects_of_valid hP hu hvalid) hk hroot hlearnt (hok.not_conditional hu hk)

/-! ## Runs that end as unsolvable -/

namespace Config

/-- A hard run that ended as unsolvable. -/
theorem Hard.unsolvable {c : Config N S F} (h : c.Hard P problem) {conflict : List ClauseId}
    (hout : c.outcome = some (.unsolvable conflict)) :
    c.state.UnsatisfiableCore conflict ∧ ∃ level, SolverOk P problem .noSoft level c.state := by
  have hstate := h.state
  unfold outcome at hout
  split at hout
  · next outcome hpoint =>
      obtain rfl := Option.some.inj hout
      simp only [HardState, hpoint] at hstate
      exact hstate
  · cases hout

/-- **The reported conflict is an unsatisfiable core**: its clauses are clauses of the problem, and no
    assignment with a true root satisfies all of them. -/
theorem run_unsatisfiableCore (hP : P.WellFormed) (hsoft : problem.softRequirements = [])
    (sched : Nat → Choice S) (n : Nat) {conflict : List ClauseId}
    (hout : (run P act problem sched n).outcome = some (.unsolvable conflict)) :
    (run P act problem sched n).state.UnsatisfiableCore conflict := by
  have hhard : (run P act problem sched n).Hard P problem := (run_hard hP hsoft sched n).1
  exact (hhard.unsolvable hout).1

/-- The sample ends with the clauses of the root, of the two packages and of the four candidates. -/
theorem sample_unsatisfiableCore :
    (HardSample.sample 98).state.UnsatisfiableCore [1, 7, 15, 9, 10, 2, 8, 13] :=
  run_unsatisfiableCore HardSample.wellFormed rfl (nonYielding HardSample.box.provider) 98
    (show (HardSample.sample 98).outcome = _ by decide +kernel)

end Config

end Completeness

end Resolvo
