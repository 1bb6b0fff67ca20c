import Resolvo.Correctness.Conflict
import Resolvo.Correctness.EncoderCall
import Resolvo.Lib.Binary

/-!
# `Correctness.Exact` — what the clauses say about the solvables

The clauses of the problem constrain the variables of the solvables exactly as the provider's answers
about what was encoded do. In one direction the clauses of each requirement, constraint and package are
looked up; in the other the auxiliary variables are given the values they stand for.
-/

set_option linter.unusedSectionVars false

namespace Resolvo

open Sat Relation SolverState

variable {N S F : Type} [DecidableEq N] [DecidableEq S]

section Exact

/-! ## Assignments and selections -/

/-- The solvables whose variable is true. -/
def selection (s : SolverState N S F) (τ : VariableId → Bool) : Set S :=
  {x | ∃ v, s.IsVar (.solvable x) v ∧ τ v = true}

/-- Every clause of the problem holds. -/
def SolverState.Models (s : SolverState N S F) (σ : VariableId → Bool) : Prop :=
  ∀ id, s.IsProblemClause id → ClauseHolds σ (s.literals id)

/-- The candidates of a package that its at-most-one encoding knows. -/
def Candidate (s : SolverState N S F) (name : N) (x : S) : Prop :=
  ∃ v ∈ (s.atMostOneTrackers.getD name {}).vars, s.IsVar (.solvable x) v

/-- **A selection respects what was encoded**: the dependencies that were asked for, the exclusions and
    locks of the packages that were asked for, and one version of each package. -/
structure Respects (P : DependencyProvider N S) (problem : Problem S) (s : SolverState N S F)
    (sel : Set S) : Prop where
  requirements : ∀ p ∈ s.clausesAddedForSolvable, Selected sel p → ∀ r, Requires P problem p r →
    HasCandidate P sel r.requirement
  constraints : ∀ p ∈ s.clausesAddedForSolvable, Selected sel p → ∀ vs, Constrains P problem p vs →
    ∀ x ∈ P.nonMatchingCandidates vs, x ∉ sel
  known : ∀ x ∈ sel, .solvable x ∈ s.clausesAddedForSolvable →
    ∃ deps, P.getDependencies x = .known deps
  excluded : ∀ name ∈ s.clausesAddedForPackage, ∀ e ∈ (P.candidatesOf name).excluded, e.1 ∉ sel
  locked : ∀ name ∈ s.clausesAddedForPackage, ∀ locked, (P.candidatesOf name).locked = some locked →
    ∀ x ∈ (P.candidatesOf name).candidates, x ∈ sel → x = locked
  single : ∀ name, (P.candidatesOf name).allowMultiple = false →
    ∀ x ∈ sel, ∀ y ∈ sel, Candidate s name x → Candidate s name y → x = y

variable {P : DependencyProvider N S} {problem : Problem S} {A : RunFacts} {s : SolverState N S F}
  {level : Nat}

/-- Whoever satisfies the clauses of the problem satisfies what was learnt from them. -/
theorem SolverState.Models.holds {σ : VariableId → Bool} (h : s.Models σ) (hs : s.Arena)
    {id : ClauseId} (hid : s.literals id ≠ []) : ClauseHolds σ (s.literals id) :=
  hs.derivation.holds_of_leaves id fun j hj => h j (hs.isProblemClause_of_leaf hid hj)

/-- Whoever satisfies the clauses of the problem satisfies a clause of a given kind. -/
theorem SolverState.Models.kind {σ : VariableId → Bool} (h : s.Models σ) {id : ClauseId}
    {kind : Clause N} (hk : s.clauses[id]? = some kind) (hroot : kind ≠ .installRoot)
    (hlearnt : ∀ k, kind ≠ .learnt k) : ClauseHolds σ (s.kindLiterals kind) := by
  rw [← literals_of_kind hk]
  exact h id ⟨kind, hk, hroot, hlearnt⟩

/-- A clause of two literals. -/
theorem clauseHolds_pair {σ : VariableId → Bool} {a b : Literal} :
    ClauseHolds σ [a, b] ↔ a.holds σ ∨ b.holds σ := by
  simp [ClauseHolds]

theorem selected_iff {τ : VariableId → Bool} (hroot : τ VariableId.root = true)
    {p : SolvableIdOrRoot S} {v : VariableId} (hv : s.IsVar p v) :
    Selected (selection s τ) p ↔ τ v = true := by
  cases p with
  | root =>
      obtain rfl : VariableId.root = v := Option.some.inj hv
      exact ⟨fun _ => hroot, fun _ => trivial⟩
  | solvable x =>
      constructor
      · rintro ⟨w, hw, hτ⟩
        obtain rfl : v = w := Option.some.inj (hv.symm.trans hw)
        exact hτ
      · exact fun hτ => ⟨v, hv, hτ⟩

/-- The candidates of a requirement, as variables. -/
theorem CandidateVars.mem_iff {r : Requirement} {vars : List (List VariableId)} (hP : P.WellFormed)
    (h : s.CandidateVars P r vars) {v : VariableId} : v ∈ vars.flatten ↔
      ∃ vs ∈ r.versionSets P, ∃ x ∈ P.matchingCandidates vs, s.IsVar (.solvable x) v := by
  have h' : List.Forall₂ (AreVars s) ((r.versionSets P).map P.sortedCandidates) vars := h
  constructor
  · intro hv
    obtain ⟨l, hl, hvl⟩ := List.mem_flatten.mp hv
    obtain ⟨c, hc, hcl⟩ := List.Forall₂.exists_of_mem_right h' hl
    obtain ⟨vs, hvs, rfl⟩ := List.mem_map.mp hc
    obtain ⟨x, hx, hxv⟩ := List.Forall₂.exists_of_mem_right hcl hvl
    exact ⟨vs, hvs, x, hP.mem_sortedCandidates.mp hx, hxv⟩
  · rintro ⟨vs, hvs, x, hx, hxv⟩
    obtain ⟨l, hl, hcl⟩ := List.Forall₂.exists_of_mem_left h' (List.mem_map_of_mem hvs)
    obtain ⟨w, hw, hxw⟩ := List.Forall₂.exists_of_mem_left hcl (hP.mem_sortedCandidates.mpr hx)
    obtain rfl : v = w := Option.some.inj (hxv.symm.trans hxw)
    exact List.mem_flatten.mpr ⟨l, hl, hw⟩

/-- A requirement has a selected candidate if one of its variables is true. -/
theorem hasCandidate_iff (hP : P.WellFormed) {r : Requirement} {vars : List (List VariableId)}
    (h : s.CandidateVars P r vars) {τ : VariableId → Bool} :
    HasCandidate P (selection s τ) r ↔ ∃ v ∈ vars.flatten, τ v = true := by
  constructor
  · rintro ⟨vs, hvs, x, hx, v, hv, hτ⟩
    exact ⟨v, (CandidateVars.mem_iff hP h).mpr ⟨vs, hvs, x, hx, hv⟩, hτ⟩
  · rintro ⟨v, hv, hτ⟩
    obtain ⟨vs, hvs, x, hx, hxv⟩ := (CandidateVars.mem_iff hP h).mp hv
    exact ⟨vs, hvs, x, hx, v, hxv, hτ⟩

/-- An unconditional requires clause holds if its parent is false or a candidate is selected. -/
theorem requires_holds_iff (hP : P.WellFormed) {new : IndexMap N VariableId} (ht : s.Tables P new)
    {parent : VariableId} {r : Requirement} (hclosed : s.Closed (.requires parent none r))
    {σ : VariableId → Bool} : ClauseHolds σ (s.kindLiterals (.requires parent none r)) ↔
      (σ parent = true → HasCandidate P (selection s σ) r) := by
  obtain ⟨⟨vars, hvars⟩, -⟩ := hclosed
  have hlits : s.kindLiterals (.requires parent none r) =
      negative parent :: vars.flatten.map positive := by
    simp [SolverState.kindLiterals, Clause.literals, IndexMap.getD, hvars]
  rw [hlits, hasCandidate_iff hP (ht.candidates r vars hvars)]
  constructor
  · rintro ⟨l, hl, hσ⟩ hparent
    rcases List.mem_cons.mp hl with rfl | hl
    · rw [negative_holds, hparent] at hσ
      cases hσ
    · obtain ⟨v, hv, rfl⟩ := List.mem_map.mp hl
      exact ⟨v, hv, hσ⟩
  · intro h
    cases hp : σ parent with
    | false => exact ⟨negative parent, List.mem_cons_self, hp⟩
    | true =>
        obtain ⟨v, hv, hσ⟩ := h hp
        exact ⟨positive v, List.mem_cons_of_mem _ (List.mem_map_of_mem hv), hσ⟩

/-! ## The clauses imply what was encoded -/

section Sound

variable {σ : VariableId → Bool}

/-- Between two calls of the encoder everything that was queued is encoded. -/
theorem Awaited.done {t : Task N S} (h : Awaited P (Encoder.idle level s) t) : Done P s t := by
  rcases h with h | h
  · cases h
  · exact h

theorem Running.dependencies (h : Running P problem A (.idle level s)) {p : SolvableIdOrRoot S}
    (hp : p ∈ s.clausesAddedForSolvable) : DependenciesSettled P problem (Encoder.idle level s) p := by
  rcases h.coverage.solvables p hp with hp | hp
  · cases hp
  · exact hp

theorem Running.package (h : Running P problem A (.idle level s)) {name : N}
    (hn : name ∈ s.clausesAddedForPackage) : PackageEncoded P s name :=
  (h.coverage.packages name hn).done

/-- An encoded requirement of a selected solvable has a selected candidate. -/
theorem EncodesRequirement.hasCandidate (hP : P.WellFormed) {enc : Encoder N S F}
    (hok : EncOk P problem (A.Ordered P problem) enc) (ha : enc.state.Arena)
    (hσ : enc.state.Models σ) {v : VariableId} {r : Requirement}
    (h : EncodesRequirement enc.state v none r) (hv : σ v = true) :
    HasCandidate P (selection enc.state σ) r := by
  have hclause : ∀ (id : ClauseId) parent, enc.state.clauses[id]? = some (.requires parent none r) →
      σ parent = true → HasCandidate P (selection enc.state σ) r := fun id parent hc =>
    (requires_holds_iff hP hok.tables (ha.closed id _ hc)).mp
      (hσ.kind hc (fun h => by cases h) fun _ h => by cases h)
  rcases h with ⟨id, hc, -⟩ | ⟨-, gate, id, hgate, hc, -⟩
  · exact hclause id v hc hv
  · -- the requirer implies the gate, and the gate a candidate
    have hor := hσ.kind hc (fun h => by cases h) fun _ h => by cases h
    obtain ⟨id', hc'⟩ := hok.gateClauses r gate hgate
    refine hclause id' gate hc' ?_
    rcases clauseHolds_pair.mp hor with hg | hn
    · exact hg
    · rw [negative_holds, hv] at hn
      cases hn

/-- An encoded constraint of a selected solvable keeps its non-matching candidates out. -/
theorem ConstraintEncoded.out (hok : EncOk P problem (A.Ordered P problem) (.idle level s))
    (hσ : s.Models σ) {p : SolvableIdOrRoot S} {vs : VersionSetId} (h : ConstraintEncoded P s p vs)
    (hp : ∀ v, s.IsVar p v → σ v = true) {x : S} (hx : x ∈ P.nonMatchingCandidates vs)
    {w : VariableId} (hw : s.IsVar (.solvable x) w) : σ w = false := by
  obtain ⟨v, hv, h⟩ := h
  have hvσ := hp v hv
  rcases h with h | ⟨-, aux, id, haux, hc⟩
  · obtain ⟨f, id, hf, hc⟩ := h x hx
    obtain rfl : w = f := Option.some.inj (hw.symm.trans hf)
    have hor := hσ.kind hc (fun h => by cases h) fun _ h => by cases h
    rcases clauseHolds_pair.mp hor with hn | hn
    · rw [negative_holds, hvσ] at hn
      cases hn
    · exact hn
  · -- the solvable rules the violation out, and the candidate implies it
    obtain ⟨f, id', hf, hc'⟩ := hok.auxClauses vs aux haux x hx
    obtain rfl : w = f := Option.some.inj (hw.symm.trans hf)
    have hparent := hσ.kind hc (fun h => by cases h) fun _ h => by cases h
    have hcand := hσ.kind hc' (fun h => by cases h) fun _ h => by cases h
    have hauxσ : σ aux = false := by
      rcases clauseHolds_pair.mp hparent with hn | hn
      · rw [negative_holds, hvσ] at hn
        cases hn
      · exact hn
    rcases clauseHolds_pair.mp hcand with hn | hn
    · exact hn
    · rw [positive_holds, hauxσ] at hn
      cases hn

theorem Excludes.out (ha : s.Arena) (hσ : s.Models σ) {p : SolvableIdOrRoot S} (h : Excludes s p)
    {w : VariableId} (hw : s.IsVar p w) : σ w = false := by
  obtain ⟨v, id, hv, hm⟩ := h
  obtain rfl : w = v := Option.some.inj (hw.symm.trans hv)
  have hlits := (ha.assertions _ hm).2
  have hclause := hσ.holds ha (show s.literals id ≠ [] by simp [hlits])
  obtain ⟨l, hl, hlσ⟩ := hclause
  rw [hlits] at hl
  rw [List.mem_singleton.mp hl] at hlσ
  exact hlσ

theorem LocksOut.out (hroot : σ VariableId.root = true) (hσ : s.Models σ) {x : S} (h : LocksOut s x)
    {w : VariableId} (hw : s.IsVar (.solvable x) w) : σ w = false := by
  obtain ⟨v, lockedVar, id, hv, hc⟩ := h
  obtain rfl : w = v := Option.some.inj (hw.symm.trans hv)
  have hor := hσ.kind hc (fun h => by cases h) fun _ h => by cases h
  rcases clauseHolds_pair.mp hor with hn | hn
  · exact hn
  · rw [negative_holds, hroot] at hn
    cases hn

/-- The clauses of a package's encoding leave at most one of its candidates true. -/
theorem AmoEncoded.atMostOne (hσ : s.Models σ) {name : N} {tr : AtMostOnceTracker VariableId}
    (h : AmoEncoded s name tr) : AtMostOne σ tr.vars := by
  suffices hfixes : FixesBits σ tr.vars tr.helpers from hfixes.atMostOne h.capacity
  intro i j v helper hj hi hv
  obtain ⟨id, hc⟩ := h.clauses i j v helper hj hi
  have hor := hσ.kind hc (fun h => by cases h) fun _ h => by cases h
  rcases clauseHolds_pair.mp hor with hn | hn
  · rw [negative_holds, hv] at hn
    cases hn
  · unfold Encoder.helperLiteral at hn
    split at hn
    · next hb => exact hn.trans hb.symm
    · next hb =>
        rw [Bool.not_eq_true] at hb
        exact hn.trans hb.symm

/-- **The clauses imply everything that was encoded.** -/
theorem Running.respects (hP : P.WellFormed) (h : Running P problem A (.idle level s))
    (hu : Unconditional P problem) (hroot : σ VariableId.root = true) (hσ : s.Models σ) :
    Respects P problem s (selection s σ) where
  requirements := by
    intro p hp hsel r hr
    have hsettled := (h.dependencies hp).requirements r hr
    have hdone := (hsettled.1 (hu p r hr)).done
    obtain ⟨v, hv, henc⟩ := hdone
    have hvσ := (selected_iff hroot hv).mp hsel
    exact EncodesRequirement.hasCandidate hP h.good.ok h.good.trail.core.arena hσ henc hvσ
  constraints := by
    rintro p hp hsel vs hvs x hx ⟨w, hw, hwσ⟩
    have hdone := ((h.dependencies hp).constrains vs hvs).done
    have hfalse := ConstraintEncoded.out h.good.ok hσ hdone
      (fun v hv => (selected_iff hroot hv).mp hsel) hx hw
    rw [hwσ] at hfalse
    cases hfalse
  known := by
    rintro x ⟨w, hw, hwσ⟩ hx
    cases hdeps : P.getDependencies x with
    | known deps => exact ⟨deps, rfl⟩
    | unknown reason =>
        have hex := (h.dependencies hx).unknown reason hdeps
        have hfalse := hex.out h.good.trail.core.arena hσ hw
        rw [hwσ] at hfalse
        cases hfalse
  excluded := by
    rintro name hn e he ⟨w, hw, hwσ⟩
    have hfalse := ((h.package hn).excluded e he).out h.good.trail.core.arena hσ hw
    rw [hwσ] at hfalse
    cases hfalse
  locked := by
    rintro name hn locked hl x hx ⟨w, hw, hwσ⟩
    by_contra hne
    have hfalse := ((h.package hn).locked locked hl x hx hne).out hroot hσ hw
    rw [hwσ] at hfalse
    cases hfalse
  single := by
    rintro name - x ⟨v, hv, hvσ⟩ y ⟨w, hw, hwσ⟩ ⟨v', hv', hxv'⟩ ⟨w', hw', hyw'⟩
    obtain rfl : v = v' := Option.some.inj (hv.symm.trans hxv')
    obtain rfl : w = w' := Option.some.inj (hw.symm.trans hyw')
    have hamo := AmoEncoded.atMostOne hσ (h.packages.atMostOne.getD name)
    obtain rfl := hamo v hv' w hw' hvσ hwσ
    exact h.good.ok.tables.vars.lookup_inj hv hw

end Sound

/-! ## What was encoded gives the auxiliary variables their values -/

section Complete

variable {τ : VariableId → Bool}

open Classical in
/-- An assignment of the solvables with every auxiliary variable set to what it stands for. -/
noncomputable def extend (P : DependencyProvider N S) (s : SolverState N S F)
    (τ : VariableId → Bool) (v : VariableId) : Bool :=
  match s.variableMap.origins[v]? with
  | some (.requiresGate r) => decide (HasCandidate P (selection s τ) r)
  | some (.constrainsViolation vs) => decide (∃ x ∈ P.nonMatchingCandidates vs, x ∈ selection s τ)
  | some (.forbidMultiple name) =>
      let tr := s.atMostOneTrackers.getD name {}
      decide (∃ i : Nat, tr.helpers[i]? = some v ∧ ∃ (j : Nat) (w : VariableId),
        tr.vars[j]? = some w ∧ τ w = true ∧ j.testBit i = true)
  | some (.atLeastOne name) => decide (∃ x ∈ (P.candidatesOf name).candidates, x ∈ selection s τ)
  | _ => τ v

theorem extend_of_isVar (hs : s.variableMap.WF) {p : SolvableIdOrRoot S} {v : VariableId}
    (hv : s.IsVar p v) : extend P s τ v = τ v := by
  cases p with
  | root =>
      obtain rfl : VariableId.root = v := Option.some.inj hv
      simp only [extend, (hs.root _).mpr rfl]
  | solvable x => simp only [extend, (hs.lookup_iff x v).mp hv]

theorem selection_extend (hs : s.variableMap.WF) : selection s (extend P s τ) = selection s τ := by
  ext x
  constructor
  · rintro ⟨v, hv, hσ⟩
    exact ⟨v, hv, (extend_of_isVar hs hv).symm.trans hσ⟩
  · rintro ⟨v, hv, hσ⟩
    exact ⟨v, hv, (extend_of_isVar hs hv).trans hσ⟩

theorem extend_gate {r : Requirement} {g : VariableId}
    (hg : s.variableMap.origins[g]? = some (.requiresGate r)) :
    extend P s τ g = true ↔ HasCandidate P (selection s τ) r := by
  simp only [extend, hg, decide_eq_true_eq]

theorem extend_violation {vs : VersionSetId} {a : VariableId}
    (ha : s.variableMap.origins[a]? = some (.constrainsViolation vs)) :
    extend P s τ a = true ↔ ∃ x ∈ P.nonMatchingCandidates vs, x ∈ selection s τ := by
  simp only [extend, ha, decide_eq_true_eq]

theorem extend_atLeastOne {name : N} {v : VariableId}
    (hv : s.variableMap.origins[v]? = some (.atLeastOne name)) :
    extend P s τ v = true ↔ ∃ x ∈ (P.candidatesOf name).candidates, x ∈ selection s τ := by
  simp only [extend, hv, decide_eq_true_eq]

/-- The helpers of a package get the bits of its selected candidate. -/
theorem extend_fixesBits {name : N} {tr : AtMostOnceTracker VariableId} (hs : s.variableMap.WF)
    (hget : s.atMostOneTrackers.get? name = some tr) (hok : s.TrackerOk P name tr)
    (hone : AtMostOne τ tr.vars) : FixesBits (extend P s τ) tr.vars tr.helpers := by
  have hvar : ∀ v ∈ tr.vars, extend P s τ v = τ v := by
    intro v hv
    obtain ⟨x, -, hx⟩ := hok.vars v hv
    exact extend_of_isVar hs hx
  have hone' : AtMostOne (extend P s τ) tr.vars := by
    intro v hv w hw hvσ hwσ
    exact hone v hv w hw ((hvar v hv).symm.trans hvσ) ((hvar w hw).symm.trans hwσ)
  refine hone'.fixesBits hok.vars_nodup fun i g hi => ?_
  have horigin := hok.helpers g (List.mem_of_getElem? hi)
  have hgetD : s.atMostOneTrackers.getD name {} = tr := by simp [IndexMap.getD, hget]
  simp only [extend, horigin, hgetD, decide_eq_true_eq]
  constructor
  · rintro ⟨i', hi', j, w, hj, hw, hbit⟩
    -- a helper has one place only
    obtain ⟨hlt, heq⟩ := List.getElem?_eq_some_iff.mp hi
    obtain ⟨hlt', heq'⟩ := List.getElem?_eq_some_iff.mp hi'
    obtain rfl : i = i' := hok.helpers_nodup.getElem_inj_iff.mp (heq.trans heq'.symm)
    exact ⟨j, w, hj, (hvar w (List.mem_of_getElem? hj)).trans hw, hbit⟩
  · rintro ⟨j, w, hj, hw, hbit⟩
    exact ⟨i, hi, j, w, hj, (hvar w (List.mem_of_getElem? hj)).symm.trans hw, hbit⟩

/-- A clause that requires something under a condition. -/
def Clause.IsConditional : Clause N → Prop
  | .requires _ (some _) _ => True
  | _ => False

/-- **What was encoded satisfies the clauses**: the auxiliary variables take the values they stand for. -/
theorem EncOk.extend_holds (hP : P.WellFormed) {enc : Encoder N S F} (h : EncOk P problem True enc)
    (ha : enc.state.Arena) (hroot : τ VariableId.root = true)
    (hsel : Respects P problem enc.state (selection enc.state τ)) {id : ClauseId} {kind : Clause N}
    (hk : enc.state.clauses[id]? = some kind) (hinstall : kind ≠ .installRoot)
    (hlearnt : ∀ k, kind ≠ .learnt k) (hcond : ¬ kind.IsConditional) :
    ClauseHolds (extend P enc.state τ) (enc.state.kindLiterals kind) := by
  have hwf := h.tables.vars
  have horigin := h.origins id kind hk hinstall hlearnt
  -- a true requirer is selected, a selected solvable is true
  have hselected : ∀ {p v}, enc.state.IsVar p v → extend P enc.state τ v = true →
      Selected (selection enc.state τ) p := fun hv hσ =>
    (selected_iff hroot hv).mpr ((extend_of_isVar hwf hv).symm.trans hσ)
  have hfalse : ∀ {x v}, enc.state.IsVar (.solvable x) v → x ∉ selection enc.state τ →
      extend P enc.state τ v = false := by
    intro x v hv hx
    rw [extend_of_isVar hwf hv, ← Bool.not_eq_true]
    exact fun hσ => hx ⟨v, hv, hσ⟩
  cases kind with
  | installRoot => exact absurd rfl hinstall
  | learnt k => exact absurd rfl (hlearnt k)
  | requires parent condition r =>
      cases condition with
      | some d => exact absurd trivial hcond
      | none =>
          rw [requires_holds_iff hP h.tables (ha.closed id _ hk), selection_extend hwf]
          intro hparent
          rcases horigin with hg | ⟨p, hp, hr⟩
          · exact (extend_gate hg).mp hparent
          · exact hsel.requirements p hr.2 (hselected hp hparent) _ hr.1
  | forbidMultipleInstances a b name =>
      obtain ⟨tr, i, j, htr, hj, hi, hb⟩ := horigin
      have hone : AtMostOne τ tr.vars := by
        intro v hv w hw hvσ hwσ
        obtain ⟨x, hx, hxv⟩ := (h.tables.trackers name tr htr).vars v hv
        obtain ⟨y, hy, hyw⟩ := (h.tables.trackers name tr htr).vars w hw
        have hget : enc.state.atMostOneTrackers.getD name {} = tr := by simp [IndexMap.getD, htr]
        obtain rfl := hsel.single name (h.trackers trivial name tr htr).2 x ⟨v, hxv, hvσ⟩ y
          ⟨w, hyw, hwσ⟩ ⟨v, hget ▸ hv, hxv⟩ ⟨w, hget ▸ hw, hyw⟩
        exact Option.some.inj (hxv.symm.trans hyw)
      have hbits := extend_fixesBits hwf htr (h.tables.trackers name tr htr) hone
      refine clauseHolds_pair.mpr ?_
      cases hσ : extend P enc.state τ a with
      | false => exact .inl hσ
      | true =>
          refine .inr ((hbits i j a b.var hj hi hσ).trans ?_)
          rw [Lit.satisfyingValue, hb, Bool.not_not]
  | constrains parent forbidden vs =>
      obtain ⟨p, x, hp, hx, hc, hm⟩ := horigin
      refine clauseHolds_pair.mpr ?_
      cases hσ : extend P enc.state τ parent with
      | false => exact .inl hσ
      | true => exact .inr (hfalse hx (hsel.constraints p hc.2 (hselected hp hσ) vs hc.1 x hm))
  | constrainsExcluded candidate aux vs =>
      obtain ⟨x, hx, haux, hm⟩ := horigin
      refine clauseHolds_pair.mpr ?_
      cases hσ : extend P enc.state τ candidate with
      | false => exact .inl hσ
      | true => exact .inr ((extend_violation haux).mpr ⟨x, hm, hselected hx hσ⟩)
  | constrainsParent parent aux vs =>
      obtain ⟨p, hp, haux, hc⟩ := horigin
      refine clauseHolds_pair.mpr ?_
      cases hσ : extend P enc.state τ parent with
      | false => exact .inl hσ
      | true =>
          refine .inr (Bool.eq_false_iff.mpr fun hviol => ?_)
          obtain ⟨x, hm, hxs⟩ := (extend_violation (h.tables.auxs vs aux haux)).mp hviol
          exact hsel.constraints p hc.2 (hselected hp hσ) vs hc.1 x hm hxs
  | lock locked other =>
      obtain ⟨name, l, x, hl, hn, hx, hne, hv⟩ := horigin
      exact clauseHolds_pair.mpr (.inl (hfalse hv fun hxs => hne (hsel.locked name hn l hl x hx hxs)))
  | excluded v reason =>
      obtain ⟨x, hv, hr⟩ := horigin
      refine ⟨negative v, List.mem_singleton_self _, hfalse hv fun hxs => ?_⟩
      rcases hr with ⟨hr, hs⟩ | ⟨name, hn, hr⟩
      · obtain ⟨deps, hdeps⟩ := hsel.known x hxs hs
        rw [hr] at hdeps
        cases hdeps
      · exact hsel.excluded name hn _ hr hxs
  | anyOf selected other =>
      refine clauseHolds_pair.mpr ?_
      cases hσ : extend P enc.state τ other with
      | false => exact .inr hσ
      | true =>
          refine .inl ?_
          rcases horigin with ⟨p, r, hg, hp, hr⟩ | ⟨name, x, ho, hx, hm⟩
          · exact (extend_gate (h.tables.gates r selected hg)).mpr
              (hsel.requirements p hr.2 (hselected hp hσ) _ hr.1)
          · exact (extend_atLeastOne ho).mpr ⟨x, hm, hselected hx hσ⟩

/-- Without conditions no clause is conditional. -/
theorem EncOk.not_conditional {ordered : Prop} {enc : Encoder N S F} (h : EncOk P problem ordered enc)
    (hu : Unconditional P problem) {id : ClauseId} {kind : Clause N}
    (hk : enc.state.clauses[id]? = some kind) : ¬ kind.IsConditional := by
  cases kind with
  | requires parent condition r =>
      cases condition with
      | none => exact fun h => h
      | some d =>
          intro _
          have horigin := h.origins id _ hk (fun h => by cases h) fun _ h => by cases h
          obtain ⟨p, c, conj, disjunction, -, hr, -⟩ := horigin
          exact hr.not_unconditional rfl hu
  | _ => exact fun h => h

end Complete

end Exact

end Resolvo
