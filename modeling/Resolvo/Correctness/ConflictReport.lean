import Resolvo.Correctness.Completeness
import Resolvo.Correctness.ConflictDrawing
import Resolvo.Correctness.ConflictGraph
import Resolvo.Correctness.LockClauses

/-!
# `Correctness.ConflictReport` — what the graph of a conflict says

The graph that is drawn for an unsolvable problem is compared with the provider's answers and with the clauses.
Each edge is a fact the provider reported. Together the edges contradict every selection of solvables. And if no
clause of the conflict has a condition every node is reached from the root, so that the graph is returned: the
solvables and gates that are not reached would be an autarky of the conflict.
-/

set_option linter.unusedSectionVars false

namespace Resolvo

open Sat Relation SolverState

variable {N S F : Type} [DecidableEq N] [DecidableEq S]

section Report

variable {P : DependencyProvider N S} {problem : Problem S} {act : ActivityParams F} {A : RunFacts}
  {s : SolverState N S F} {level : Nat} {kind : Clause N} {clauses : List ClauseId}

/-! ## The literals of a clause -/

theorem mem_candidatesOf (hP : P.WellFormed) {r : Requirement} {x : S} :
    x ∈ Conflict.candidatesOf P r ↔ ∃ vs ∈ r.versionSets P, x ∈ P.matchingCandidates vs := by
  unfold Conflict.candidatesOf
  rw [List.mem_flatMap]
  simp only [hP.mem_sortedCandidates]

/-- The literals of a requirement: its parent's, those of its condition, and those of its candidates. -/
theorem requires_literal (hP : P.WellFormed) {new : IndexMap N VariableId} (ht : s.Tables P new)
    {parent : VariableId} {condition : Option DisjunctionId} {r : Requirement}
    (hc : s.Closed (.requires parent condition r)) {l : Literal} :
    l ∈ s.kindLiterals (.requires parent condition r) ↔ l = negative parent ∨
      (∃ d disjunction, condition = some d ∧ s.disjunctions[d]? = some disjunction ∧ l ∈ disjunction.literals) ∨
      ∃ x ∈ Conflict.candidatesOf P r, ∃ v, s.IsVar (.solvable x) v ∧ l = positive v := by
  obtain ⟨⟨vars, hvars⟩, hcondition⟩ := hc
  have hcandidates : l ∈ ((s.requirementToSortedCandidates.getD r []).flatten.map positive) ↔
      ∃ x ∈ Conflict.candidatesOf P r, ∃ v, s.IsVar (.solvable x) v ∧ l = positive v := by
    rw [IndexMap.getD, hvars, Option.getD_some, List.mem_map]
    constructor
    · rintro ⟨v, hv, rfl⟩
      obtain ⟨vs, hvs, x, hx, hxv⟩ := (CandidateVars.mem_iff hP (ht.candidates r vars hvars)).mp hv
      exact ⟨x, (mem_candidatesOf hP).mpr ⟨vs, hvs, hx⟩, v, hxv, rfl⟩
    · rintro ⟨x, hx, v, hxv, rfl⟩
      obtain ⟨vs, hvs, hx⟩ := (mem_candidatesOf hP).mp hx
      exact ⟨v, (CandidateVars.mem_iff hP (ht.candidates r vars hvars)).mpr ⟨vs, hvs, x, hx, hxv⟩, rfl⟩
  show l ∈ negative parent :: (_ ++ _) ↔ _
  rw [List.mem_cons, List.mem_append, hcandidates]
  refine or_congr_right (or_congr_left ?_)
  cases condition with
  | none =>
      constructor
      · intro h
        cases h
      · rintro ⟨d, disjunction, hd, -⟩
        cases hd
  | some d =>
      obtain ⟨disjunction, hd⟩ := hcondition d rfl
      rw [Option.bind_some, hd]
      constructor
      · intro hl
        exact ⟨d, disjunction, rfl, hd, hl⟩
      · rintro ⟨d', disjunction', hdd, hd', hl⟩
        obtain rfl := Option.some.inj hdd
        obtain rfl := Option.some.inj (hd.symm.trans hd')
        exact hl

theorem candidate_isVar (hP : P.WellFormed) {new : IndexMap N VariableId} (ht : s.Tables P new)
    {parent : VariableId} {condition : Option DisjunctionId} {r : Requirement}
    (hc : s.Closed (.requires parent condition r)) {x : S} (hx : x ∈ Conflict.candidatesOf P r) :
    ∃ v, s.IsVar (.solvable x) v := by
  obtain ⟨⟨vars, hvars⟩, -⟩ := hc
  have hcandidates : List.Forall₂ (AreVars s) ((r.versionSets P).map P.sortedCandidates) vars :=
    ht.candidates r vars hvars
  obtain ⟨vs, hvs, hx⟩ := (mem_candidatesOf hP).mp hx
  obtain ⟨l, -, hl⟩ := List.Forall₂.exists_of_mem_left hcandidates (List.mem_map_of_mem hvs)
  obtain ⟨v, -, hv⟩ := List.Forall₂.exists_of_mem_left hl (hP.mem_sortedCandidates.mpr hx)
  exact ⟨v, hv⟩

/-- What a literal of a clause is about. -/
theorem Origin.literal (hP : P.WellFormed) {new : IndexMap N VariableId} (ht : s.Tables P new) (hc : s.Closed kind)
    (h : Origin P problem s kind) {l : Literal} (hl : l ∈ s.kindLiterals kind) :
    (∃ p, s.IsVar p l.var) ∨ (∃ name, s.variableMap.origins[l.var]? = some (.forbidMultiple name)) ∨
      (∃ name, s.variableMap.origins[l.var]? = some (.atLeastOne name)) ∨
      (∃ c vs, kind = .constrainsExcluded c l.var vs ∧ l.negate = false) ∨
      (∃ p vs, kind = .constrainsParent p l.var vs ∧ l.negate = true) ∨
      (∃ r, kind = .requires l.var none r ∧ l.negate = true) ∨
      ∃ other p, kind = .anyOf l.var other ∧ s.IsVar p other ∧ l.negate = false := by
  cases kind with
  | installRoot => exact h.elim
  | learnt k => exact h.elim
  | excluded v reason =>
      obtain ⟨x, hx, -⟩ := h
      rw [List.mem_singleton.mp hl]
      exact .inl ⟨_, hx⟩
  | requires parent condition r =>
      rcases (requires_literal hP ht hc).mp hl with rfl | ⟨d, disjunction, rfl, hd, hl⟩ | ⟨x, -, v, hx, rfl⟩
      · cases condition with
        | none => exact .inr (.inr (.inr (.inr (.inr (.inl ⟨r, rfl, rfl⟩)))))
        | some d =>
            obtain ⟨p, -, -, -, hp, -⟩ := h
            exact .inl ⟨p, hp⟩
      · obtain ⟨p, c, conj, disjunction', -, -, hd', -, hdisj⟩ := h
        obtain rfl := Option.some.inj (hd.symm.trans hd')
        obtain ⟨vs, -, ⟨x, -, v, hv, rfl⟩ | ⟨-, v, hv, rfl⟩⟩ := hdisj.sound l hl
        · exact .inl ⟨_, hv⟩
        · exact .inr (.inr (.inl ⟨_, hv⟩))
      · exact .inl ⟨_, hx⟩
  | forbidMultipleInstances a b name =>
      obtain ⟨tr, i, j, htr, hj, hi, -⟩ := h
      have htracker := ht.trackers name tr htr
      rcases List.mem_pair.mp hl with rfl | rfl
      · obtain ⟨x, -, hx⟩ := htracker.vars a (List.mem_of_getElem? hj)
        exact .inl ⟨_, hx⟩
      · exact .inr (.inl ⟨name, htracker.helpers _ (List.mem_of_getElem? hi)⟩)
  | constrains parent forbidden vs =>
      obtain ⟨p, x, hp, hx, -⟩ := h
      rcases List.mem_pair.mp hl with rfl | rfl
      · exact .inl ⟨p, hp⟩
      · exact .inl ⟨_, hx⟩
  | constrainsExcluded candidate aux vs =>
      obtain ⟨x, hx, -⟩ := h
      rcases List.mem_pair.mp hl with rfl | rfl
      · exact .inl ⟨_, hx⟩
      · exact .inr (.inr (.inr (.inl ⟨candidate, vs, rfl, rfl⟩)))
  | constrainsParent parent aux vs =>
      obtain ⟨p, hp, -⟩ := h
      rcases List.mem_pair.mp hl with rfl | rfl
      · exact .inl ⟨p, hp⟩
      · exact .inr (.inr (.inr (.inr (.inl ⟨parent, vs, rfl, rfl⟩))))
  | lock locked other =>
      obtain ⟨name, x, y, -, -, -, -, hy⟩ := h
      rcases List.mem_pair.mp hl with rfl | rfl
      · exact .inl ⟨_, hy⟩
      · exact .inl ⟨.root, rfl⟩
  | anyOf selected other =>
      have hother : ∃ p, s.IsVar p other := by
        rcases h with ⟨p, r, -, hp, -⟩ | ⟨name, x, -, hx, -⟩
        · exact ⟨p, hp⟩
        · exact ⟨_, hx⟩
      rcases List.mem_pair.mp hl with rfl | rfl
      · obtain ⟨p, hp⟩ := hother
        exact .inr (.inr (.inr (.inr (.inr (.inr ⟨other, p, rfl, hp, rfl⟩)))))
      · exact .inl hother

/-! ## What edges and graphs say -/

/-- The root and the selected solvables. -/
def Chosen (sel : Set S) : ConflictNode S → Prop
  | .root => True
  | .solvable x => x ∈ sel
  | _ => False

/-- **A selection meets a graph**: it has a candidate for each requirement of what it chooses, nothing that is
    excluded, locked out or constrained, and one of the candidates of a package that are linked. -/
structure Meets (g : DiGraph S) (sel : Set S) : Prop where
  requires : ∀ u r v, g.Edge u (.requires r) v → Chosen sel u → ∃ v', g.Edge u (.requires r) v' ∧ Chosen sel v'
  constrains : ∀ u vs v, g.Edge u (.conflict (.constrains vs)) v → Chosen sel u → ¬ Chosen sel v
  excluded : ∀ u v, g.Edge u (.conflict .excluded) v → ¬ Chosen sel u
  locked : ∀ u locked v, g.Edge u (.conflict (.locked locked)) v → ¬ Chosen sel v
  single : ∀ u v, Relation.EqvGen (fun u v => g.Edge u (.conflict .forbidMultipleInstances) v) u v →
    Chosen sel u → Chosen sel v → u = v

theorem chosen_iff {sel : Set S} {p : SolvableIdOrRoot S} :
    Chosen sel (.fromSolvableOrRoot p) ↔ Selected sel p := by
  cases p <;> exact Iff.rfl

/-- A false variable satisfies its negative literal. -/
theorem holds_negative {σ : VariableId → Bool} {v : VariableId} (hv : ¬ σ v = true) : (negative v).holds σ := by
  rw [negative_holds]
  exact Bool.not_eq_true _ ▸ hv

/-! ### The assignment of a selection -/

section Assignment

variable (s : SolverState N S F) (clauses : List ClauseId) (sel : Set S)

/-- A selected solvable shares the gate. -/
def NeedsGate (v : VariableId) : Prop :=
  ∃ p other, Selected sel p ∧ Conflict.Reports s clauses (.anyOf v other) ∧ s.IsVar p other

/-- A selected solvable is ruled out by the constraint. -/
def NeedsViolation (v : VariableId) : Prop :=
  ∃ x candidate vs, x ∈ sel ∧ Conflict.Reports s clauses (.constrainsExcluded candidate v vs) ∧
    s.IsVar (.solvable x) candidate

/-- A selected candidate of the package has the bit of the helper. -/
def NeedsBit (name : N) (v : VariableId) : Prop :=
  ∃ x a b tr, ∃ i j : Nat, x ∈ sel ∧ s.IsVar (.solvable x) a ∧
    Conflict.Reports s clauses (.forbidMultipleInstances a b name) ∧ s.atMostOneTrackers.get? name = some tr ∧
    tr.helpers[i]? = some v ∧ tr.vars[j]? = some a ∧ j.testBit i = true

open Classical in
/-- An auxiliary variable is true if the clauses of the conflict and the selection need it to be. -/
noncomputable def assignment (v : VariableId) : Bool :=
  match s.variableMap.origins[v]? with
  | some .root => true
  | some (.solvable x) => decide (x ∈ sel)
  | some (.requiresGate _) => decide (NeedsGate s clauses sel v)
  | some (.constrainsViolation _) => decide (NeedsViolation s clauses sel v)
  | some (.forbidMultiple name) => decide (NeedsBit s clauses sel name v)
  | some (.atLeastOne _) => true
  | none => false

end Assignment

section AssignmentLemmas

variable {sel : Set S} {v : VariableId}

theorem assignment_isVar (hwf : s.variableMap.WF) {p : SolvableIdOrRoot S} (hp : s.IsVar p v) :
    assignment s clauses sel v = true ↔ Selected sel p := by
  unfold assignment
  cases p with
  | root =>
      obtain rfl : VariableId.root = v := Option.some.inj hp
      rw [(hwf.root _).mpr rfl]
      exact ⟨fun _ => trivial, fun _ => rfl⟩
  | solvable x =>
      rw [(hwf.lookup_iff x v).mp hp]
      simp only [decide_eq_true_eq]
      exact Iff.rfl

theorem assignment_gate {r : Requirement} (ho : s.variableMap.origins[v]? = some (.requiresGate r)) :
    assignment s clauses sel v = true ↔ NeedsGate s clauses sel v := by
  unfold assignment
  rw [ho]
  simp only [decide_eq_true_eq]

theorem assignment_violation {vs : VersionSetId}
    (ho : s.variableMap.origins[v]? = some (.constrainsViolation vs)) :
    assignment s clauses sel v = true ↔ NeedsViolation s clauses sel v := by
  unfold assignment
  rw [ho]
  simp only [decide_eq_true_eq]

theorem assignment_helper {name : N} (ho : s.variableMap.origins[v]? = some (.forbidMultiple name)) :
    assignment s clauses sel v = true ↔ NeedsBit s clauses sel name v := by
  unfold assignment
  rw [ho]
  simp only [decide_eq_true_eq]

theorem assignment_atLeastOne {name : N} (ho : s.variableMap.origins[v]? = some (.atLeastOne name)) :
    assignment s clauses sel v = true := by
  unfold assignment
  rw [ho]

end AssignmentLemmas

/-- The candidate of a requirement that is drawn. -/
theorem Conflict.Built.candidate_of_chosen {front : List ClauseId} {b : GraphBuilder N S} {sel : Set S}
    (h : Conflict.Built P s clauses front b) {u v : ConflictNode S} {r : Requirement}
    (he : b.graph.Edge u (.requires r) v) (hv : Chosen sel v) : ∃ x ∈ Conflict.candidatesOf P r, v = .solvable x := by
  rcases h.sound _ _ _ he with ⟨kind, -, hd⟩ | ⟨hw, -⟩
  · cases kind with
    | requires parent condition r' =>
        obtain ⟨p, -, -, hw, hcandidates⟩ := hd
        cases hw
        rcases hcandidates with ⟨-, rfl⟩ | ⟨x, hx, rfl⟩
        · exact hv.elim
        · exact ⟨x, hx, rfl⟩
    | excluded => obtain ⟨x, -, -, hw, -⟩ := hd; cases hw
    | lock => obtain ⟨x, y, -, -, -, hw, -⟩ := hd; cases hw
    | constrains => obtain ⟨p, x, -, -, -, hw, -⟩ := hd; cases hw
    | constrainsParent => obtain ⟨p, -, -, hw, -⟩ := hd; cases hw
    | constrainsExcluded => obtain ⟨x, -, -, hw, -⟩ := hd; cases hw
    | _ => exact hd.elim
  · cases hw

/-! ## Reported conflicts -/

/-- What is known about a conflict that is reported. -/
structure Reported (P : DependencyProvider N S) (problem : Problem S) (s : SolverState N S F)
    (clauses : List ClauseId) : Prop where
  tables : s.Tables P {}
  trackers : ∀ name tr, s.atMostOneTrackers.get? name = some tr → (P.candidatesOf name).allowMultiple = false
  origins : ∀ kind, Conflict.Reports s clauses kind → Origin P problem s kind
  closed : ∀ kind, Conflict.Reports s clauses kind → s.Closed kind
  core : s.UnsatisfiableCore clauses
  tight : s.TightCore clauses
  locks : LocksNamed P s

namespace Reported

variable (h : Reported P problem s clauses)

include h

theorem legible_of {kind : Clause N} (hr : Conflict.Reports s clauses kind) : Conflict.Legible s kind := by
  have horigin := h.origins kind hr
  cases kind with
  | installRoot => trivial
  | requires parent condition r => trivial
  | anyOf selected other => trivial
  | learnt k => exact horigin.elim
  | excluded v reason =>
      obtain ⟨x, hx, -⟩ := horigin
      exact ⟨x, hx⟩
  | forbidMultipleInstances a b name =>
      obtain ⟨tr, i, j, htr, hj, hi, -⟩ := horigin
      have htracker := h.tables.trackers name tr htr
      obtain ⟨x, -, hx⟩ := htracker.vars a (List.mem_of_getElem? hj)
      exact ⟨⟨x, hx⟩, htracker.helpers _ (List.mem_of_getElem? hi)⟩
  | constrains parent forbidden vs =>
      obtain ⟨p, x, hp, hx, -⟩ := horigin
      exact ⟨⟨p, hp⟩, x, hx⟩
  | constrainsExcluded candidate aux vs =>
      obtain ⟨x, hx, -⟩ := horigin
      exact ⟨x, hx⟩
  | constrainsParent parent aux vs =>
      obtain ⟨p, hp, -⟩ := horigin
      exact ⟨p, hp⟩
  | lock locked other =>
      obtain ⟨id, -, hk⟩ := hr
      obtain ⟨name, x, y, -, -, -, hx, hy⟩ := h.locks locked other (List.mem_of_getElem? hk)
      exact ⟨⟨x, hx⟩, y, hy⟩

/-- Every clause of a conflict is a clause of the problem. -/
theorem kind_of {id : ClauseId} (hid : id ∈ clauses) : ∃ kind, s.clauses[id]? = some kind := by
  obtain ⟨kind, hk, -⟩ := h.core.problemClauses id hid
  exact ⟨kind, hk⟩

theorem legible : ∀ id ∈ clauses, ∃ kind, s.clauses[id]? = some kind ∧ Conflict.Legible s kind := by
  intro id hid
  obtain ⟨kind, hk⟩ := h.kind_of hid
  exact ⟨kind, hk, h.legible_of ⟨id, hid, hk⟩⟩

/-- The complement of a literal is in another clause. -/
theorem complement {kind : Clause N} (hr : Conflict.Reports s clauses kind) {l : Literal}
    (hl : l ∈ s.kindLiterals kind) (hroot : l.var ≠ VariableId.root) :
    ∃ kind', Conflict.Reports s clauses kind' ∧ l.neg ∈ s.kindLiterals kind' := by
  obtain ⟨id, hid, hk⟩ := hr
  rw [← literals_of_kind hk] at hl
  obtain ⟨j, hj, hneg⟩ := h.tight.complement hid hl hroot
  obtain ⟨kind', hk'⟩ := h.kind_of hj
  exact ⟨kind', ⟨j, hj, hk'⟩, literals_of_kind hk' ▸ hneg⟩

theorem not_isVar {v : VariableId} {o : VariableOrigin N S} (ho : s.variableMap.origins[v]? = some o)
    (haux : VariableMap.IsAuxiliary o) (p : SolvableIdOrRoot S) : ¬ s.IsVar p v := by
  intro hp
  cases p with
  | root =>
      obtain rfl : VariableId.root = v := Option.some.inj hp
      rw [(h.tables.vars.root _).mpr rfl] at ho
      obtain rfl := Option.some.inj ho
      exact haux
  | solvable x =>
      rw [(h.tables.vars.lookup_iff x v).mp hp] at ho
      obtain rfl := Option.some.inj ho
      exact haux

theorem ne_root {v : VariableId} {o : VariableOrigin N S} (ho : s.variableMap.origins[v]? = some o)
    (haux : VariableMap.IsAuxiliary o) : v ≠ VariableId.root := by
  rintro rfl
  exact h.not_isVar ho haux .root rfl

/-- The clauses that have a violation variable are those of the shared constraint. -/
theorem violation_literal (hP : P.WellFormed) {kind : Clause N} (hr : Conflict.Reports s clauses kind) {l : Literal}
    (hl : l ∈ s.kindLiterals kind) {vs : VersionSetId}
    (ho : s.variableMap.origins[l.var]? = some (.constrainsViolation vs)) :
    (∃ c vs', kind = .constrainsExcluded c l.var vs' ∧ l.negate = false) ∨
      ∃ p vs', kind = .constrainsParent p l.var vs' ∧ l.negate = true := by
  have horigin := h.origins kind hr
  rcases horigin.literal hP h.tables (h.closed kind hr) hl with
    ⟨p, hp⟩ | ⟨name, hn⟩ | ⟨name, hn⟩ | hexcluded | hparent | ⟨r, rfl, -⟩ | ⟨other, p, rfl, -, -⟩
  · exact absurd hp (h.not_isVar ho trivial p)
  · rw [ho] at hn
    cases hn
  · rw [ho] at hn
    cases hn
  · exact .inl hexcluded
  · exact .inr hparent
  · rcases horigin with hg | ⟨p, hp, -⟩
    · rw [ho] at hg
      cases hg
    · exact absurd hp (h.not_isVar ho trivial p)
  · rcases horigin with ⟨q, r, hg, -⟩ | ⟨name, x, hn, -⟩
    · have hgate := h.tables.gates r _ hg
      rw [ho] at hgate
      cases hgate
    · rw [ho] at hn
      cases hn

/-- The clauses that have a gate are those of the shared requirement. -/
theorem gate_literal (hP : P.WellFormed) {kind : Clause N} (hr : Conflict.Reports s clauses kind) {l : Literal}
    (hl : l ∈ s.kindLiterals kind) {r : Requirement}
    (ho : s.variableMap.origins[l.var]? = some (.requiresGate r)) :
    (∃ r', kind = .requires l.var none r' ∧ l.negate = true) ∨
      ∃ other p, kind = .anyOf l.var other ∧ s.IsVar p other ∧ l.negate = false := by
  have horigin := h.origins kind hr
  rcases horigin.literal hP h.tables (h.closed kind hr) hl with
    ⟨p, hp⟩ | ⟨name, hn⟩ | ⟨name, hn⟩ | ⟨c, vs, rfl, -⟩ | ⟨p, vs, rfl, -⟩ | hrequires | hany
  · exact absurd hp (h.not_isVar ho trivial p)
  · rw [ho] at hn
    cases hn
  · rw [ho] at hn
    cases hn
  · obtain ⟨x, -, hv, -⟩ := horigin
    rw [ho] at hv
    cases hv
  · obtain ⟨q, -, haux, -⟩ := horigin
    have hv := h.tables.auxs vs _ haux
    rw [ho] at hv
    cases hv
  · exact .inl hrequires
  · exact .inr hany

theorem gate_of_isRequiresGate {v : VariableId} (hg : Conflict.isRequiresGate s v = true) :
    ∃ r, s.variableMap.origins[v]? = some (.requiresGate r) := by
  unfold Conflict.isRequiresGate VariableMap.origin? at hg
  split at hg
  · next r ho => exact ⟨r, ho⟩
  · cases hg

/-- **The conflict has both sides of everything it has a side of.** -/
theorem paired (hP : P.WellFormed) : Conflict.Paired s clauses where
  candidates := by
    intro parent aux vs hr
    obtain ⟨p, -, haux, -⟩ := h.origins _ hr
    have ho := h.tables.auxs vs aux haux
    obtain ⟨kind, hr', hl⟩ := h.complement hr (l := negative aux) (by simp [kindLiterals, Clause.literals])
      (h.ne_root ho trivial)
    rcases h.violation_literal hP hr' hl ho with ⟨c, vs', rfl, -⟩ | ⟨q, vs', -, hneg⟩
    · exact ⟨c, vs', hr'⟩
    · cases hneg
  parents := by
    intro candidate aux vs hr
    obtain ⟨x, -, ho, -⟩ := h.origins _ hr
    obtain ⟨kind, hr', hl⟩ := h.complement hr (l := positive aux) (by simp [kindLiterals, Clause.literals])
      (h.ne_root ho trivial)
    rcases h.violation_literal hP hr' hl ho with ⟨c, vs', -, hneg⟩ | ⟨q, vs', rfl, -⟩
    · cases hneg
    · exact ⟨q, vs', hr'⟩
  requirers := by
    intro gate condition r hr hgate
    obtain ⟨r', ho⟩ := h.gate_of_isRequiresGate hgate
    obtain ⟨kind, hr', hl⟩ := h.complement hr (l := negative gate) (by simp [kindLiterals, Clause.literals])
      (h.ne_root ho trivial)
    rcases h.gate_literal hP hr' hl ho with ⟨r'', -, hneg⟩ | ⟨other, p, rfl, hp, -⟩
    · cases hneg
    · exact ⟨other, p, hr', hp⟩

/-! ### Each edge holds -/

/-- A true parent of a requirement has a selected requirer. -/
theorem exists_requirer {parent : VariableId} {condition : Option DisjunctionId} {r : Requirement}
    (hr : Conflict.Reports s clauses (.requires parent condition r)) {sel : Set S}
    (hparent : assignment s clauses sel parent = true) :
    ∃ p, Selected sel p ∧ Conflict.Requirer s clauses p parent := by
  have hwf := h.tables.vars
  cases condition with
  | none =>
      rcases h.origins _ hr with ho | ⟨p, hp, -⟩
      · obtain ⟨p, other, hsel, hr', hp⟩ := (assignment_gate ho).mp hparent
        have hgate : Conflict.isRequiresGate s parent = true := by
          unfold Conflict.isRequiresGate VariableMap.origin?
          rw [ho]
        exact ⟨p, hsel, .inr ⟨hgate, other, hr', hp⟩⟩
      · exact ⟨p, (assignment_isVar hwf hp).mp hparent, .inl hp⟩
  | some d =>
      obtain ⟨p, -, -, -, hp, -⟩ := h.origins _ hr
      exact ⟨p, (assignment_isVar hwf hp).mp hparent, .inl hp⟩

/-- A helper has the bit of the selected candidate, if no other candidate of the package is selected. -/
theorem holds_helper {a : VariableId} {other : Literal} {name : N}
    (hr : Conflict.Reports s clauses (.forbidMultipleInstances a other name)) {sel : Set S}
    (ha : assignment s clauses sel a = true)
    (hsingle : ∀ u v, Conflict.Forbidden s clauses name u → Conflict.Forbidden s clauses name v → Chosen sel u →
      Chosen sel v → u = v) : other.holds (assignment s clauses sel) := by
  obtain ⟨tr, i, j, htr, hj, hi, hnegate⟩ := h.origins _ hr
  have htracker := h.tables.trackers name tr htr
  obtain ⟨x, -, hx⟩ := htracker.vars a (List.mem_of_getElem? hj)
  have hsel : x ∈ sel := (assignment_isVar h.tables.vars hx).mp ha
  have hbit : assignment s clauses sel other.var = j.testBit i := by
    apply Bool.eq_iff_iff.mpr
    rw [assignment_helper (htracker.helpers _ (List.mem_of_getElem? hi))]
    constructor
    · rintro ⟨x', a', b', tr', i', j', hsel', hx', hr', htr', hi', hj', hbit⟩
      have hsame : ConflictNode.solvable x = .solvable x' :=
        hsingle _ _ ⟨a, other, x, hr, hx, rfl⟩ ⟨a', b', x', hr', hx', rfl⟩ hsel hsel'
      obtain rfl := ConflictNode.solvable.inj hsame
      obtain rfl : a = a' := Option.some.inj (hx.symm.trans hx')
      obtain rfl := Option.some.inj (htr.symm.trans htr')
      -- neither the candidate nor the helper occurs twice in the encoding
      have hlti := (List.getElem?_eq_some_iff.mp hi).1
      have hltj := (List.getElem?_eq_some_iff.mp hj).1
      obtain rfl := (List.getElem?_inj hlti htracker.helpers_nodup).mp (hi.trans hi'.symm)
      obtain rfl := (List.getElem?_inj hltj htracker.vars_nodup).mp (hj.trans hj'.symm)
      exact hbit
    · intro hbit
      exact ⟨x, a, other, tr, i, j, hsel, hx, hr, htr, hi, hj, hbit⟩
  show assignment s clauses sel other.var = !other.negate
  rw [hbit, hnegate, Bool.not_not]

/-- **The edges of the graph contradict every selection**: one that meets them would satisfy the conflict. -/
theorem refutes (hP : P.WellFormed) {g : DiGraph S} {b : GraphBuilder N S} (hb : Conflict.Built P s clauses clauses b)
    (hg : ∀ u w v, g.Edge u w v ↔ b.graph.Edge u w v) (sel : Set S) : ¬ Meets g sel := by
  intro hm
  have hwf := h.tables.vars
  have hedge : ∀ {kind u w v}, Conflict.Reports s clauses kind → Conflict.Drawn P s clauses kind u w v →
      g.Edge u w v := fun hr hd => (hg _ _ _).mpr (hb.complete _ hr _ _ _ hd)
  have hσ : ∀ {p v}, s.IsVar p v → (assignment s clauses sel v = true ↔ Selected sel p) := fun hp =>
    assignment_isVar hwf hp
  refine h.core.unsatisfiable (assignment s clauses sel) ((hσ (p := .root) rfl).mpr trivial) ?_
  intro id hid
  obtain ⟨kind, hk⟩ := h.kind_of hid
  have hr : Conflict.Reports s clauses kind := ⟨id, hid, hk⟩
  have horigin := h.origins kind hr
  rw [literals_of_kind hk]
  cases kind with
  | installRoot => exact horigin.elim
  | learnt k => exact horigin.elim
  | excluded v reason =>
      obtain ⟨x, hx, -⟩ := horigin
      refine ⟨negative v, List.mem_singleton_self _, holds_negative fun hv => ?_⟩
      have hd : Conflict.Drawn P s clauses (.excluded v reason) _ _ _ := ⟨x, hx, rfl, rfl, rfl⟩
      exact hm.excluded _ _ (hedge hr hd) ((hσ hx).mp hv)
  | requires parent condition r =>
      by_cases hparent : assignment s clauses sel parent = true
      · obtain ⟨p, hp, hrequirer⟩ := h.exists_requirer hr hparent
        -- the selection has a candidate for the requirer
        obtain ⟨v, hd⟩ : ∃ v, Conflict.Drawn P s clauses (.requires parent condition r) (.fromSolvableOrRoot p)
            (.requires r) v := by
          cases hcandidates : Conflict.candidatesOf P r with
          | nil => exact ⟨.unresolvedDependency, p, hrequirer, rfl, rfl, .inl ⟨hcandidates, rfl⟩⟩
          | cons x xs =>
              exact ⟨.solvable x, p, hrequirer, rfl, rfl, .inr ⟨x, hcandidates ▸ List.mem_cons_self, rfl⟩⟩
        obtain ⟨v', hv', hchosen⟩ := hm.requires _ _ _ (hedge hr hd) (chosen_iff.mpr hp)
        obtain ⟨x, hx, rfl⟩ := Conflict.Built.candidate_of_chosen hb ((hg _ _ _).mp hv') hchosen
        obtain ⟨w, hw⟩ := candidate_isVar hP h.tables (h.closed _ hr) hx
        exact ⟨positive w, (requires_literal hP h.tables (h.closed _ hr)).mpr (.inr (.inr ⟨x, hx, w, hw, rfl⟩)),
          (hσ hw).mpr hchosen⟩
      · exact ⟨negative parent, (requires_literal hP h.tables (h.closed _ hr)).mpr (.inl rfl), holds_negative hparent⟩
  | forbidMultipleInstances a other name =>
      refine clauseHolds_pair.mpr ?_
      by_cases ha : assignment s clauses sel a = true
      · refine .inr (h.holds_helper hr ha fun u v hu hv hut hvt => ?_)
        have hchain := hb.chained name u v hu hv
        have hlinked := EqvGen.mono (fun u v huv => (hg u _ v).mpr huv) _ _ hchain
        exact hm.single u v hlinked hut hvt
      · exact .inl (holds_negative ha)
  | constrains parent forbidden vs =>
      obtain ⟨p, x, hp, hx, -⟩ := horigin
      refine clauseHolds_pair.mpr ?_
      by_cases hparent : assignment s clauses sel parent = true
      · refine .inr (holds_negative fun hv => ?_)
        have hd : Conflict.Drawn P s clauses (.constrains parent forbidden vs) _ _ _ := ⟨p, x, hp, hx, rfl, rfl, rfl⟩
        exact hm.constrains _ _ _ (hedge hr hd) (chosen_iff.mpr ((hσ hp).mp hparent)) ((hσ hx).mp hv)
      · exact .inl (holds_negative hparent)
  | constrainsExcluded candidate aux vs =>
      obtain ⟨x, hx, ho, -⟩ := horigin
      refine clauseHolds_pair.mpr ?_
      by_cases hcandidate : assignment s clauses sel candidate = true
      · exact .inr ((assignment_violation ho).mpr ⟨x, candidate, vs, (hσ hx).mp hcandidate, hr, hx⟩)
      · exact .inl (holds_negative hcandidate)
  | constrainsParent parent aux vs =>
      obtain ⟨p, hp, haux, -⟩ := horigin
      refine clauseHolds_pair.mpr ?_
      by_cases hparent : assignment s clauses sel parent = true
      · refine .inr (holds_negative fun hv => ?_)
        obtain ⟨x, candidate, vs', hxsel, hr', hx⟩ :=
          (assignment_violation (h.tables.auxs vs aux haux)).mp hv
        have hd : Conflict.Drawn P s clauses (.constrainsParent parent aux vs) _ _ _ :=
          ⟨p, hp, rfl, rfl, candidate, vs', x, hr', hx, rfl⟩
        exact hm.constrains _ _ _ (hedge hr hd) (chosen_iff.mpr ((hσ hp).mp hparent)) hxsel
      · exact .inl (holds_negative hparent)
  | lock locked other =>
      obtain ⟨⟨x, hx⟩, y, hy⟩ := h.legible_of hr
      refine clauseHolds_pair.mpr (.inl (holds_negative fun hv => ?_))
      have hd : Conflict.Drawn P s clauses (.lock locked other) _ _ _ := ⟨x, y, hx, hy, rfl, rfl, rfl⟩
      exact hm.locked _ _ _ (hedge hr hd) ((hσ hy).mp hv)
  | anyOf selected other =>
      refine clauseHolds_pair.mpr ?_
      rcases horigin with ⟨p, r, hgate, hp, -⟩ | ⟨name, x, ho, -⟩
      · by_cases hother : assignment s clauses sel other = true
        · exact .inl ((assignment_gate (h.tables.gates r selected hgate)).mpr ⟨p, other, (hσ hp).mp hother, hr, hp⟩)
        · exact .inr (holds_negative hother)
      · exact .inl (assignment_atLeastOne ho)

/-! ### Every node is reached -/

section Connected

variable {g : DiGraph S} {b : GraphBuilder N S}

omit h

/-- The variable of a solvable that is not reached, or of a gate none of whose requirers is. -/
def Unreached (s : SolverState N S F) (clauses : List ClauseId) (g : DiGraph S) (v : VariableId) : Prop :=
  (∃ x, s.IsVar (.solvable x) v ∧ ¬ g.Joins .root (.solvable x)) ∨
    ∃ r, s.variableMap.origins[v]? = some (.requiresGate r) ∧ ∀ other p, Conflict.Reports s clauses (.anyOf v other) →
      s.IsVar p other → ¬ g.Joins .root (.fromSolvableOrRoot p)

theorem unreached_of_isVar {p : SolvableIdOrRoot S} {v : VariableId} (hp : s.IsVar p v)
    (hj : ¬ g.Joins .root (.fromSolvableOrRoot p)) : Unreached s clauses g v := by
  cases p with
  | root => exact absurd .refl hj
  | solvable x => exact .inl ⟨x, hp, hj⟩

include h

theorem not_joins {p : SolvableIdOrRoot S} {v : VariableId} (hp : s.IsVar p v) (hu : Unreached s clauses g v) :
    ¬ g.Joins .root (.fromSolvableOrRoot p) := by
  rcases hu with ⟨x, hx, hj⟩ | ⟨r, ho, -⟩
  · obtain rfl := h.tables.vars.varOf_inj hx hp
    exact hj
  · exact absurd hp (h.not_isVar ho trivial p)

theorem Unreached.ne_root {v : VariableId} (hu : Unreached s clauses g v) : v ≠ VariableId.root := by
  rintro rfl
  exact h.not_joins (p := .root) rfl hu .refl

/-- A clause without a condition that has a variable which is not reached is satisfied if all these are false. -/
theorem satisfied_of_unreached (hP : P.WellFormed) (hb : Conflict.Built P s clauses clauses b) {kind : Clause N}
    (hr : Conflict.Reports s clauses kind) (hunconditional : ¬ kind.IsConditional)
    {l : Literal} (hl : l ∈ s.kindLiterals kind) (hu : Unreached s clauses b.graph l.var) :
    ∃ v, negative v ∈ s.kindLiterals kind ∧ Unreached s clauses b.graph v := by
  have horigin := h.origins kind hr
  -- no other auxiliary variable counts as not reached
  have haux : ∀ {v o}, s.variableMap.origins[v]? = some o → VariableMap.IsAuxiliary o →
      (∀ r, o ≠ .requiresGate r) → ¬ Unreached s clauses b.graph v := by
    rintro v o ho haux hne (⟨x, hx, -⟩ | ⟨r, hg, -⟩)
    · exact h.not_isVar ho haux _ hx
    · exact hne r (Option.some.inj (ho.symm.trans hg))
  cases kind with
  | installRoot => exact horigin.elim
  | learnt k => exact horigin.elim
  | excluded v reason =>
      obtain rfl := List.mem_singleton.mp hl
      exact ⟨v, hl, hu⟩
  | requires parent condition r =>
      have hparent : negative parent ∈ s.kindLiterals (.requires parent condition r) :=
        (requires_literal hP h.tables (h.closed _ hr)).mpr (.inl rfl)
      rcases (requires_literal hP h.tables (h.closed _ hr)).mp hl with rfl | ⟨d, -, rfl, -⟩ | ⟨x, hx, v, hxv, rfl⟩
      · exact ⟨parent, hparent, hu⟩
      · exact absurd trivial hunconditional
      · -- the requirers of a candidate that is not reached are not reached either
        have hrequirers : ∀ p, Conflict.Requirer s clauses p parent → ¬ b.graph.Joins .root (.fromSolvableOrRoot p) := by
          intro p hp hj
          have hd : Conflict.Drawn P s clauses (.requires parent condition r) (.fromSolvableOrRoot p) (.requires r)
              (.solvable x) := ⟨p, hp, rfl, rfl, .inr ⟨x, hx, rfl⟩⟩
          exact h.not_joins hxv hu (hj.tail ⟨_, hb.complete _ hr _ _ _ hd⟩)
        refine ⟨parent, hparent, ?_⟩
        cases condition with
        | some d => exact absurd trivial hunconditional
        | none =>
            rcases horigin with ho | ⟨p, hp, -⟩
            · have hgate : Conflict.isRequiresGate s parent = true := by
                unfold Conflict.isRequiresGate VariableMap.origin?
                rw [ho]
              exact .inr ⟨r, ho, fun other p hr' hp => hrequirers p (.inr ⟨hgate, other, hr', hp⟩)⟩
            · exact unreached_of_isVar hp (hrequirers p (.inl hp))
  | forbidMultipleInstances a other name =>
      obtain ⟨tr, i, j, htr, hj, hi, -⟩ := horigin
      rcases List.mem_pair.mp hl with rfl | rfl
      · exact ⟨a, hl, hu⟩
      · have ho := (h.tables.trackers name tr htr).helpers _ (List.mem_of_getElem? hi)
        exact absurd hu (haux ho trivial fun r hne => by cases hne)
  | constrains parent forbidden vs =>
      rcases List.mem_pair.mp hl with rfl | rfl
      · exact ⟨parent, hl, hu⟩
      · exact ⟨forbidden, hl, hu⟩
  | constrainsExcluded candidate aux vs =>
      obtain ⟨x, -, ho, -⟩ := horigin
      rcases List.mem_pair.mp hl with rfl | rfl
      · exact ⟨candidate, hl, hu⟩
      · exact absurd hu (haux ho trivial fun r hne => by cases hne)
  | constrainsParent parent aux vs =>
      obtain ⟨p, -, ho, -⟩ := horigin
      rcases List.mem_pair.mp hl with rfl | rfl
      · exact ⟨parent, hl, hu⟩
      · exact absurd hu (haux (h.tables.auxs vs aux ho) trivial fun r hne => by cases hne)
  | lock locked other =>
      rcases List.mem_pair.mp hl with rfl | rfl
      · exact ⟨other, hl, hu⟩
      · exact absurd rfl (Unreached.ne_root h hu)
  | anyOf selected other =>
      rcases List.mem_pair.mp hl with rfl | rfl
      · rcases horigin with ⟨p, r, hgate, hp, -⟩ | ⟨name, x, ho, -⟩
        · rcases hu with ⟨x, hx, -⟩ | ⟨r', -, hall⟩
          · exact absurd hx (h.not_isVar (h.tables.gates r selected hgate) trivial _)
          · exact ⟨other, List.mem_pair.mpr (.inr rfl), unreached_of_isVar hp (hall other p hr hp)⟩
        · exact absurd hu (haux ho trivial fun r hne => by cases hne)
      · exact ⟨other, hl, hu⟩

/-- **What is not reached is an autarky**, so that no clause has a variable which is not reached. -/
theorem not_unreached (hP : P.WellFormed) (hb : Conflict.Built P s clauses clauses b)
    (hunconditional : ∀ kind, Conflict.Reports s clauses kind → ¬ kind.IsConditional)
    {kind : Clause N} (hr : Conflict.Reports s clauses kind) {l : Literal} (hl : l ∈ s.kindLiterals kind) :
    ¬ Unreached s clauses b.graph l.var := by
  intro hu
  let X : Set Literal := {m | ∃ v, Unreached s clauses b.graph v ∧ m = negative v}
  have hvar : ∀ m : Literal, m ∈ X ∨ m.neg ∈ X → Unreached s clauses b.graph m.var := by
    rintro m (⟨v, hv, rfl⟩ | ⟨v, hv, hm⟩)
    · exact hv
    · have hsame : m.neg.var = v := by rw [hm]; rfl
      exact hsame ▸ hv
  have hmem : negative l.var ∈ X := ⟨l.var, hu, rfl⟩
  have haut : IsAutarky X (s.conflictClauses clauses) := by
    constructor
    · rintro m ⟨v, hv, rfl⟩ ⟨v', hv', hneg⟩
      cases hneg
    · rintro c ⟨id, hid, rfl⟩ ⟨m, hm, hX⟩
      obtain ⟨kind', hk⟩ := h.kind_of hid
      rw [literals_of_kind hk] at hm ⊢
      obtain ⟨v, hv, huv⟩ := h.satisfied_of_unreached hP hb ⟨id, hid, hk⟩ (hunconditional kind' ⟨id, hid, hk⟩) hm
        (hvar m hX)
      exact ⟨negative v, hv, v, huv, rfl⟩
  obtain ⟨id, hid, hk⟩ := hr
  refine h.tight X (fun m hm => Unreached.ne_root h (hvar m (.inl hm))) haut id hid ⟨l, literals_of_kind hk ▸ hl, ?_⟩
  obtain ⟨v, negate⟩ := l
  cases negate with
  | true => exact .inl hmem
  | false => exact .inr hmem

/-- Every solvable of a clause is reached. -/
theorem joins_of_literal (hP : P.WellFormed) (hb : Conflict.Built P s clauses clauses b)
    (hunconditional : ∀ kind, Conflict.Reports s clauses kind → ¬ kind.IsConditional)
    {kind : Clause N} (hr : Conflict.Reports s clauses kind) {l : Literal} (hl : l ∈ s.kindLiterals kind)
    {p : SolvableIdOrRoot S} (hp : s.IsVar p l.var) : b.graph.Joins .root (.fromSolvableOrRoot p) := by
  by_contra hj
  exact h.not_unreached hP hb hunconditional hr hl (unreached_of_isVar hp hj)

/-- Every edge starts at a node that is reached. -/
theorem joins_of_drawn (hP : P.WellFormed) (hb : Conflict.Built P s clauses clauses b)
    (hunconditional : ∀ kind, Conflict.Reports s clauses kind → ¬ kind.IsConditional)
    {kind : Clause N} (hr : Conflict.Reports s clauses kind) {u v : ConflictNode S} {w : ConflictEdge S}
    (hd : Conflict.Drawn P s clauses kind u w v) : b.graph.Joins .root u := by
  have hjoins : ∀ {kind}, Conflict.Reports s clauses kind → ∀ {l : Literal}, l ∈ s.kindLiterals kind → ∀ {p},
      s.IsVar p l.var → b.graph.Joins .root (.fromSolvableOrRoot p) := fun hr _ hl _ hp =>
    h.joins_of_literal hP hb hunconditional hr hl hp
  cases kind with
  | excluded v reason =>
      obtain ⟨x, hx, rfl, -⟩ := hd
      exact hjoins hr (l := negative v) (List.mem_singleton_self _) (p := .solvable x) hx
  | requires parent condition r =>
      obtain ⟨p, hp | ⟨-, other, hr', hp⟩, rfl, -⟩ := hd
      · exact hjoins hr (l := negative parent) List.mem_cons_self hp
      · exact hjoins hr' (l := negative other) (List.mem_pair.mpr (.inr rfl)) hp
  | lock locked other =>
      obtain ⟨x, y, -, -, rfl, -⟩ := hd
      exact .refl
  | constrains parent forbidden vs =>
      obtain ⟨p, x, hp, -, rfl, -⟩ := hd
      exact hjoins hr (l := negative parent) (List.mem_pair.mpr (.inl rfl)) hp
  | constrainsParent parent aux vs =>
      obtain ⟨p, hp, rfl, -⟩ := hd
      exact hjoins hr (l := negative parent) (List.mem_pair.mpr (.inl rfl)) hp
  | constrainsExcluded candidate aux vs =>
      obtain ⟨x, -, -, -, parent, vs', p, hr', hp, rfl⟩ := hd
      exact hjoins hr' (l := negative parent) (List.mem_pair.mpr (.inl rfl)) hp
  | installRoot => exact hd.elim
  | forbidMultipleInstances => exact hd.elim
  | learnt => exact hd.elim
  | anyOf => exact hd.elim

/-- **Every node of the graph is reached from the root.** -/
theorem connected (hP : P.WellFormed) (hb : Conflict.Built P s clauses clauses b)
    (hunconditional : ∀ kind, Conflict.Reports s clauses kind → ¬ kind.IsConditional)
    {unresolved : Option NodeIndex} (hf : GraphBuilder.Finished b g unresolved) :
    ∀ u ∈ g.nodes, g.Joins .root u := by
  have hforbidden : ∀ {name u}, Conflict.Forbidden s clauses name u → b.graph.Joins .root u := by
    rintro name u ⟨a, other, x, hr, hx, rfl⟩
    exact h.joins_of_literal hP hb hunconditional hr (l := negative a) (List.mem_pair.mpr (.inl rfl))
      (p := .solvable x) hx
  have hedge : ∀ {u w v}, b.graph.Edge u w v → b.graph.Joins .root u := by
    intro u w v he
    rcases hb.sound _ _ _ he with ⟨kind, hr, hd⟩ | ⟨-, name, hu, -⟩
    · exact h.joins_of_drawn hP hb hunconditional hr hd
    · exact hforbidden hu
  intro u hu
  suffices hj : b.graph.Joins .root u by
    exact ReflTransGen.mono (fun x y hxy => hxy.imp fun w he => (hf.edge x w y).mpr he) _ _ hj
  obtain ⟨hub, hlinked⟩ := (hf.mem u).mp hu
  rcases hb.nodes u hub with rfl | rfl | ⟨kind, w, v, hr, hd | hd⟩ | ⟨name, hname⟩
  · exact .refl
  · obtain ⟨v, w, he⟩ := hlinked rfl
    exact (hedge he).tail ⟨w, he⟩
  · exact h.joins_of_drawn hP hb hunconditional hr hd
  · have he := hb.complete _ hr _ _ _ hd
    exact (hedge he).tail ⟨w, he⟩
  · exact hforbidden hname

end Connected

end Reported

/-! ## Runs -/

instance : DecidablePred (Clause.IsConditional : Clause N → Prop)
  | .requires _ (some _) _ => .isTrue trivial
  | .requires _ none _ | .installRoot | .excluded .. | .forbidMultipleInstances .. | .constrains ..
  | .constrainsExcluded .. | .constrainsParent .. | .lock .. | .learnt .. | .anyOf .. => .isFalse id

/-- Exclude edges lead to the nodes of exclude reasons, and no other edge does. -/
theorem Conflict.Built.excluded_iff {front : List ClauseId} {b : GraphBuilder N S}
    (h : Conflict.Built P s clauses front b) {u v : ConflictNode S} {w : ConflictEdge S} (he : b.graph.Edge u w v) :
    w = .conflict .excluded ↔ ∃ reason, v = .excluded reason := by
  rcases h.sound _ _ _ he with ⟨kind, -, hd⟩ | ⟨rfl, name, -, a, other, x, -, -, rfl⟩
  · cases kind with
    | excluded y reason =>
        obtain ⟨x, -, -, rfl, rfl⟩ := hd
        exact ⟨fun _ => ⟨reason, rfl⟩, fun _ => rfl⟩
    | requires parent condition r =>
        obtain ⟨p, -, -, rfl, ⟨-, rfl⟩ | ⟨x, -, rfl⟩⟩ := hd <;> simp
    | lock locked other =>
        obtain ⟨x, y, -, -, -, rfl, rfl⟩ := hd
        simp
    | constrains parent forbidden vs =>
        obtain ⟨p, x, -, -, -, rfl, rfl⟩ := hd
        simp
    | constrainsParent parent aux vs =>
        obtain ⟨p, -, -, rfl, candidate, vs', x, -, -, rfl⟩ := hd
        simp
    | constrainsExcluded candidate aux vs =>
        obtain ⟨x, -, rfl, rfl, -⟩ := hd
        simp
    | _ => exact hd.elim
  · simp

/-- A graph all of whose nodes are reached. -/
theorem Conflict.Built.exists_graph {front : List ClauseId} {b : GraphBuilder N S} {g : DiGraph S}
    {unresolved : Option NodeIndex} (hb : Conflict.Built P s clauses front b)
    (hf : GraphBuilder.Finished b g unresolved) (hj : ∀ u ∈ g.nodes, g.Joins .root u) :
    ∃ cg : ConflictGraph S, cg.graph = g ∧ cg.rootNode = GraphBuilder.rootNode ∧ cg.unresolvedNode = unresolved ∧
      ∀ i < g.nodes.length, cg.Reachable i := by
  have hreach : ∀ i < g.nodes.length, g.Reaches GraphBuilder.rootNode i := by
    intro i hi
    have hnode : g.nodes[i]? = some g.nodes[i] := List.getElem?_eq_getElem hi
    exact (hf.wf.reaches_iff hf.root hnode).mpr (hj _ (List.getElem_mem hi))
  have hexcluded : ∀ e ∈ g.edges,
      e.weight = .conflict .excluded ↔ ∃ reason, g.nodes[e.target]? = some (.excluded reason) := by
    intro e he
    have hsource := List.getElem?_eq_getElem (hf.wf.source e he)
    have htarget := List.getElem?_eq_getElem (hf.wf.target e he)
    have hedge := (hf.edge _ _ _).mp ⟨e, he, hsource, rfl, htarget⟩
    rw [hb.excluded_iff hedge, htarget]
    simp only [Option.some.injEq]
  exact ⟨⟨g, GraphBuilder.rootNode, unresolved, hf.root, hexcluded, fun e he => hreach _ (hf.wf.source e he)⟩, rfl, rfl,
    rfl, hreach⟩

namespace Config

/-- A hard run reports its conflict. -/
theorem run_reported (hP : P.WellFormed) (hsoft : problem.softRequirements = []) (sched : Nat → Choice S) (n : Nat)
    (hout : (run P act problem sched n).outcome = some (.unsolvable clauses)) :
    Reported P problem (run P act problem sched n).state clauses := by
  have hhard : (run P act problem sched n).Hard P problem := (run_hard hP hsoft sched n).1
  have hrefuted : (run P act problem sched n).Refuted := run_refuted hP hsoft sched n
  obtain ⟨hcore, level, hs⟩ := hhard.unsolvable hout
  have hok := hs.running.good.ok
  have harena := hs.running.good.trail.core.arena
  have hproblem : ∀ kind, Conflict.Reports (run P act problem sched n).state clauses kind →
      kind ≠ .installRoot ∧ ∀ k, kind ≠ .learnt k := by
    rintro kind ⟨id, hid, hk⟩
    obtain ⟨kind', hk', hroot, hlearnt⟩ := hcore.problemClauses id hid
    obtain rfl := Option.some.inj (hk.symm.trans hk')
    exact ⟨hroot, hlearnt⟩
  exact
    { tables := hok.tables
      trackers := fun name tr htr => (hok.trackers (.inl trivial) name tr htr).2
      origins := fun kind hr => by
        obtain ⟨hroot, hlearnt⟩ := hproblem kind hr
        obtain ⟨id, -, hk⟩ := hr
        exact hok.origins id kind hk hroot hlearnt
      closed := fun kind hr => by
        obtain ⟨id, -, hk⟩ := hr
        exact harena.closed id kind hk
      core := hcore
      tight := hrefuted.tight clauses hout
      locks := run_locksNamed hP sched n }

/-- **What a reported graph says is enough**: no selection of solvables meets all its edges. -/
theorem run_graph_refutes (hP : P.WellFormed) (hsoft : problem.softRequirements = []) (sched : Nat → Choice S)
    (n : Nat) (hout : (run P act problem sched n).outcome = some (.unsolvable clauses)) {g : DiGraph S}
    {root : NodeIndex} {unresolved : Option NodeIndex}
    (hgraph : Conflict.graph P (run P act problem sched n).state clauses = some (g, root, unresolved))
    (sel : Set S) : ¬ Meets g sel := by
  have h := run_reported hP hsoft sched n hout
  obtain ⟨b, g', unresolved', hb, hf, -, hsome⟩ := Conflict.graph_spec h.tables.vars h.legible (h.paired hP)
  obtain ⟨hsame, -⟩ := hsome _ hgraph
  obtain rfl := (Prod.mk.inj hsame).1
  exact h.refutes hP hb hf.edge sel

theorem sample_graph_refutes : ∃ g root unresolved,
    Conflict.graph HardSample.box.provider (HardSample.sample 98).state [1, 7, 15, 9, 10, 2, 8, 13] =
      some (g, root, unresolved) ∧ ¬ Meets g Set.univ := by
  have hsome : (Conflict.graph HardSample.box.provider (HardSample.sample 98).state
      [1, 7, 15, 9, 10, 2, 8, 13]).isSome = true := by decide +kernel
  obtain ⟨⟨g, root, unresolved⟩, hgraph⟩ := Option.isSome_iff_exists.mp hsome
  refine ⟨g, root, unresolved, hgraph, ?_⟩
  exact run_graph_refutes HardSample.wellFormed rfl (nonYielding HardSample.box.provider) 98
    (show (HardSample.sample 98).outcome = some (.unsolvable [1, 7, 15, 9, 10, 2, 8, 13]) by decide +kernel) hgraph
    Set.univ

/-- **A conflict without conditions has a graph**, and each of its nodes is reached from the root: the assertion
    at the end of the construction does not fail. -/
theorem run_graph_connected (hP : P.WellFormed) (hsoft : problem.softRequirements = []) (sched : Nat → Choice S)
    (n : Nat) (hout : (run P act problem sched n).outcome = some (.unsolvable clauses))
    (hunconditional : ∀ id ∈ clauses, ∀ kind ∈ (run P act problem sched n).state.clauses[id]?, ¬ kind.IsConditional) :
    ∃ g : ConflictGraph S, Conflict.graph P (run P act problem sched n).state clauses =
      some (g.graph, g.rootNode, g.unresolvedNode) ∧ ∀ i < g.graph.nodes.length, g.Reachable i := by
  have h := run_reported hP hsoft sched n hout
  obtain ⟨b, g, unresolved, hb, hf, hsome, -⟩ := Conflict.graph_spec h.tables.vars h.legible (h.paired hP)
  have hnone : ∀ kind, Conflict.Reports (run P act problem sched n).state clauses kind → ¬ kind.IsConditional := by
    rintro kind ⟨id, hid, hk⟩
    exact hunconditional id hid kind hk
  have hjoins := h.connected hP hb hnone hf
  obtain ⟨cg, rfl, hroot, rfl, hreach⟩ := hb.exists_graph hf hjoins
  refine ⟨cg, ?_, hreach⟩
  rw [hroot]
  exact hsome hjoins

theorem sample_graph_connected : ∃ g : ConflictGraph Nat,
    Conflict.graph HardSample.box.provider (HardSample.sample 98).state [1, 7, 15, 9, 10, 2, 8, 13] =
      some (g.graph, g.rootNode, g.unresolvedNode) ∧ ∀ i < g.graph.nodes.length, g.Reachable i := by
  have hunconditional : ∀ id ∈ ([1, 7, 15, 9, 10, 2, 8, 13] : List ClauseId),
      ∀ kind ∈ (Config.run HardSample.box.provider defaultActivity HardSample.problem
        (nonYielding HardSample.box.provider) 98).state.clauses[id]?, ¬ kind.IsConditional := by decide +kernel
  exact run_graph_connected HardSample.wellFormed rfl (nonYielding HardSample.box.provider) 98
    (show (HardSample.sample 98).outcome = some (.unsolvable [1, 7, 15, 9, 10, 2, 8, 13]) by decide +kernel)
    hunconditional

end Config

end Report

end Resolvo
