import Resolvo.Correctness.Database
import Resolvo.Spec.Selection
import Resolvo.Model.Encoder

/-!
# `Correctness.Variables` — what the variables of a state stand for

Variables are handed out once and never change their meaning. `Tables` says what the lookup tables of the
state hold: gates, violation variables, at-most-one helpers and at-least-one variables are variables of
that origin, and the candidate lists and condition literals are those of the provider's answers.
-/

set_option linter.unusedSectionVars false

namespace Resolvo

open Sat

variable {N S F : Type} [DecidableEq N] [DecidableEq S]

namespace VariableMap

/-- The variable of the root or of a solvable. -/
def varOf (m : VariableMap N S) : SolvableIdOrRoot S → Option VariableId
  | .root => some VariableId.root
  | .solvable x => m.lookupSolvable x

/-- The solvable table is the inverse of the origins. -/
structure WF (m : VariableMap N S) : Prop where
  root : ∀ v, m.origins[v]? = some .root ↔ v = VariableId.root
  lookup_iff : ∀ x v, m.lookupSolvable x = some v ↔ m.origins[v]? = some (.solvable x)

theorem WF.empty : WF ({} : VariableMap N S) where
  root := by
    intro v
    cases v <;> simp [VariableId.root]
  lookup_iff := by
    intro x v
    cases v <;> simp [lookupSolvable, IndexMap.get?, IndexMap.lookup]

/-- `m'` has every variable of `m`. -/
structure Grows (m m' : VariableMap N S) : Prop where
  origins : m.origins <+: m'.origins
  lookup : ∀ x v, m.lookupSolvable x = some v → m'.lookupSolvable x = some v

theorem Grows.refl (m : VariableMap N S) : Grows m m := ⟨List.prefix_refl _, fun _ _ h => h⟩

theorem Grows.trans {m m' m'' : VariableMap N S} (h : Grows m m') (h' : Grows m' m'') :
    Grows m m'' := ⟨h.origins.trans h'.origins, fun x v hx => h'.lookup x v (h.lookup x v hx)⟩

theorem Grows.origin {m m' : VariableMap N S} (h : Grows m m') {v : VariableId}
    {o : VariableOrigin N S} (ho : m.origins[v]? = some o) : m'.origins[v]? = some o :=
  SolverState.getElem?_of_isPrefix h.origins ho

theorem Grows.varOf {m m' : VariableMap N S} (h : Grows m m') {p : SolvableIdOrRoot S}
    {v : VariableId} (hv : m.varOf p = some v) : m'.varOf p = some v := by
  cases p with
  | root => exact hv
  | solvable x => exact h.lookup x v hv

theorem WF.lookup_ne_root {m : VariableMap N S} (h : m.WF) {x : S} {v : VariableId}
    (hv : m.lookupSolvable x = some v) : v ≠ VariableId.root := by
  rintro rfl
  have h₁ := (h.lookup_iff x _).mp hv
  have h₂ := (h.root VariableId.root).mpr rfl
  rw [h₁] at h₂
  cases h₂

theorem WF.lookup_inj {m : VariableMap N S} (h : m.WF) {x y : S} {v : VariableId}
    (hx : m.lookupSolvable x = some v) (hy : m.lookupSolvable y = some v) : x = y := by
  have h₁ := (h.lookup_iff x v).mp hx
  have h₂ := (h.lookup_iff y v).mp hy
  rw [h₁] at h₂
  simpa using h₂

theorem WF.varOf_inj {m : VariableMap N S} (h : m.WF) {p q : SolvableIdOrRoot S} {v : VariableId}
    (hp : m.varOf p = some v) (hq : m.varOf q = some v) : p = q := by
  cases p with
  | root =>
      cases q with
      | root => rfl
      | solvable y => exact absurd (Option.some.inj hp).symm (h.lookup_ne_root hq)
  | solvable x =>
      cases q with
      | root => exact absurd (Option.some.inj hq).symm (h.lookup_ne_root hp)
      | solvable y => rw [h.lookup_inj hp hq]

theorem WF.asSolvable_iff {m : VariableMap N S} (h : m.WF) {x : S} {v : VariableId} :
    m.asSolvable v = some x ↔ m.lookupSolvable x = some v := by
  rw [h.lookup_iff]
  simp only [asSolvable, origin?, Option.bind_eq_some_iff]
  constructor
  · rintro ⟨o, ho, hx⟩
    cases o <;> simp [VariableOrigin.asSolvable] at hx
    exact hx ▸ ho
  · exact fun ho => ⟨_, ho, rfl⟩

theorem WF.asSolvableOrRoot_iff {m : VariableMap N S} (h : m.WF) {p : SolvableIdOrRoot S}
    {v : VariableId} : m.asSolvableOrRoot v = some p ↔ m.varOf p = some v := by
  simp only [asSolvableOrRoot, origin?, Option.bind_eq_some_iff]
  cases p with
  | root =>
      simp only [varOf, Option.some.injEq]
      constructor
      · rintro ⟨o, ho, hx⟩
        cases o <;> simp [VariableOrigin.asSolvableOrRoot] at hx
        exact ((h.root v).mp ho).symm
      · rintro rfl
        exact ⟨_, (h.root _).mpr rfl, rfl⟩
  | solvable x =>
      simp only [varOf, h.lookup_iff]
      constructor
      · rintro ⟨o, ho, hx⟩
        cases o <;> simp [VariableOrigin.asSolvableOrRoot] at hx
        exact hx ▸ ho
      · exact fun ho => ⟨_, ho, rfl⟩

/-! ## Allocation -/

/-- An origin that is neither the root's nor a solvable's. -/
def IsAuxiliary : VariableOrigin N S → Prop
  | .root => False
  | .solvable _ => False
  | _ => True

theorem alloc_grows (m : VariableMap N S) (o : VariableOrigin N S) : Grows m (m.alloc o).2 :=
  ⟨List.prefix_append _ _, fun _ _ h => h⟩

@[simp] theorem alloc_origin (m : VariableMap N S) (o : VariableOrigin N S) :
    (m.alloc o).2.origins[(m.alloc o).1]? = some o := by
  simp [alloc]

/-- The origins after an allocation: the old ones and the new one. -/
theorem alloc_origins {m : VariableMap N S} {o o' : VariableOrigin N S} {v : VariableId} :
    (m.alloc o).2.origins[v]? = some o' ↔
      m.origins[v]? = some o' ∨ (v = m.origins.length ∧ o' = o) := by
  simp only [alloc]
  constructor
  · intro h
    by_cases hv : v < m.origins.length
    · rw [List.getElem?_append_left hv] at h
      exact .inl h
    · rw [List.getElem?_append_right (Nat.not_lt.mp hv)] at h
      obtain ⟨hlt, he⟩ := List.getElem?_eq_some_iff.mp h
      have hv' : v = m.origins.length := by
        rw [List.length_singleton] at hlt
        exact Nat.le_antisymm (Nat.sub_eq_zero_iff_le.mp (Nat.lt_one_iff.mp hlt)) (Nat.not_lt.mp hv)
      exact .inr ⟨hv', by simpa using he.symm⟩
  · rintro (h | ⟨rfl, rfl⟩)
    · rw [List.getElem?_append_left (List.getElem?_eq_some_iff.mp h).1]
      exact h
    · simp

theorem WF.alloc {m : VariableMap N S} (h : m.WF) {o : VariableOrigin N S} (ho : IsAuxiliary o) :
    (m.alloc o).2.WF where
  root := by
    intro v
    rw [alloc_origins, h.root]
    constructor
    · rintro (hv | ⟨-, rfl⟩)
      · exact hv
      · exact ho.elim
    · exact .inl
  lookup_iff := by
    intro x v
    rw [alloc_origins]
    show m.lookupSolvable x = some v ↔ _
    rw [h.lookup_iff]
    constructor
    · exact .inl
    · rintro (hv | ⟨-, rfl⟩)
      · exact hv
      · exact ho.elim

theorem internSolvable_spec {m : VariableMap N S} (h : m.WF) (x : S) :
    (m.internSolvable x).2.WF ∧ Grows m (m.internSolvable x).2 ∧
      (m.internSolvable x).2.lookupSolvable x = some (m.internSolvable x).1 := by
  simp only [internSolvable]
  split
  · next v hv => exact ⟨h, .refl m, hv⟩
  · next hnone =>
      have hlookup : ∀ y v, (m.solvableToVariable.insert x m.origins.length).get? y = some v ↔
          (y = x ∧ v = m.origins.length) ∨ m.lookupSolvable y = some v := by
        intro y v
        rw [IndexMap.get?_insert]
        by_cases hy : x = y
        · subst hy
          have : m.lookupSolvable x = none := hnone
          simp [this, eq_comm]
        · have hy' : ¬ y = x := fun h' => hy h'.symm
          simp only [hy, if_false, hy', false_and, false_or]
          rfl
      refine ⟨⟨?_, ?_⟩, ⟨List.prefix_append _ _, ?_⟩, ?_⟩
      · intro v
        show (m.alloc (.solvable x)).2.origins[v]? = _ ↔ _
        rw [alloc_origins, h.root]
        simp
      · intro y v
        show (m.solvableToVariable.insert x m.origins.length).get? y = some v ↔
          (m.alloc (.solvable x)).2.origins[v]? = _
        rw [hlookup, alloc_origins, h.lookup_iff]
        constructor
        · rintro (⟨rfl, rfl⟩ | hv)
          · exact .inr ⟨rfl, rfl⟩
          · exact .inl hv
        · rintro (hv | ⟨rfl, hy⟩)
          · exact .inr hv
          · exact .inl ⟨by simpa using hy, rfl⟩
      · exact fun y v hv => (hlookup y v).mpr (.inr hv)
      · exact (hlookup x _).mpr (.inl ⟨rfl, rfl⟩)

end VariableMap

namespace SolverState

/-! ## Tables -/

section Tables

variable (P : DependencyProvider N S) (s : SolverState N S F)

/-- `v` is the variable of `p`. -/
def IsVar (p : SolvableIdOrRoot S) (v : VariableId) : Prop := s.variableMap.varOf p = some v

/-- `vars` are the variables of the solvables in a list, in order. -/
def AreVars (l : List S) (vars : List VariableId) : Prop :=
  List.Forall₂ (fun x v => s.variableMap.lookupSolvable x = some v) l vars

/-- `vars` are the variables of the sorted candidates of a requirement. -/
def CandidateVars (r : Requirement) (vars : List (List VariableId)) : Prop :=
  List.Forall₂ (AreVars s) ((r.versionSets P).map P.sortedCandidates) vars

/-- The literals that stand for "no conjunct of the disjunct is missing": the non-matching candidates of
    each version set, or the negated at-least-one variable where there are none. -/
structure IsDisjunction (conj : List VersionSetId) (literals : List Literal) : Prop where
  sound : ∀ l ∈ literals, ∃ vs ∈ conj,
    (∃ x ∈ P.nonMatchingCandidates vs, ∃ v, s.IsVar (.solvable x) v ∧ l = positive v) ∨
    (P.nonMatchingCandidates vs = [] ∧ ∃ v,
      s.variableMap.origins[v]? = some (.atLeastOne (P.versionSetName vs)) ∧ l = negative v)
  complete : ∀ vs ∈ conj,
    (∀ x ∈ P.nonMatchingCandidates vs, ∃ v, s.IsVar (.solvable x) v ∧ positive v ∈ literals) ∧
    (P.nonMatchingCandidates vs = [] → ∃ v,
      s.variableMap.origins[v]? = some (.atLeastOne (P.versionSetName vs)) ∧ negative v ∈ literals)

/-- An at-most-one tracker numbers candidates of its package, and its helpers are its own. -/
structure TrackerOk (name : N) (tr : AtMostOnceTracker VariableId) : Prop where
  vars_nodup : tr.vars.Nodup
  helpers_nodup : tr.helpers.Nodup
  vars : ∀ v ∈ tr.vars, ∃ x ∈ (P.candidatesOf name).candidates, s.IsVar (.solvable x) v
  helpers : ∀ h ∈ tr.helpers, s.variableMap.origins[h]? = some (.forbidMultiple name)

/-- The tables hold variables of the right origin and the provider's answers. `new` are the
    at-least-one variables the running encoder has not entered yet. -/
structure Tables (new : IndexMap N VariableId) : Prop where
  vars : s.variableMap.WF
  gates : ∀ r g, s.requiresAuxVars.get? r = some g →
    s.variableMap.origins[g]? = some (.requiresGate r)
  auxs : ∀ vs a, s.constrainsAuxVars.get? vs = some a →
    s.variableMap.origins[a]? = some (.constrainsViolation vs)
  trackers : ∀ name tr, s.atMostOneTrackers.get? name = some tr → TrackerOk P s name tr
  atLeastOne : ∀ name v, s.variableMap.origins[v]? = some (.atLeastOne name) ↔
    (s.atLeastOneTracker.get? name).or (new.get? name) = some v
  candidates : ∀ r vars, s.requirementToSortedCandidates.get? r = some vars → CandidateVars P s r vars
  disjunctions : ∀ d ∈ s.disjunctions,
    ∃ conj ∈ (P.resolveCondition d.condition).toDnf, IsDisjunction P s conj d.literals

end Tables

/-- `s'` has everything `s` has, in the arena and in the tables. -/
structure Grows (s s' : SolverState N S F) : Prop extends Extends s s' where
  vars : VariableMap.Grows s.variableMap s'.variableMap
  gates : ∀ r g, s.requiresAuxVars.get? r = some g → s'.requiresAuxVars.get? r = some g
  auxs : ∀ vs a, s.constrainsAuxVars.get? vs = some a → s'.constrainsAuxVars.get? vs = some a
  trackers : ∀ name tr, s.atMostOneTrackers.get? name = some tr →
    ∃ tr', s'.atMostOneTrackers.get? name = some tr' ∧ tr.vars <+: tr'.vars ∧
      tr.helpers <+: tr'.helpers
  packages : s.clausesAddedForPackage ⊆ s'.clausesAddedForPackage
  solvables : s.clausesAddedForSolvable ⊆ s'.clausesAddedForSolvable
  allowMultiple : s.allowMultipleNames ⊆ s'.allowMultipleNames
  assertions : s.negativeAssertions ⊆ s'.negativeAssertions
  requirers : ∀ g, s.requiresGateRequirers.getD g [] ⊆ s'.requiresGateRequirers.getD g []

theorem Grows.refl (s : SolverState N S F) : Grows s s :=
  ⟨.refl s, .refl _, fun _ _ h => h, fun _ _ h => h,
    fun _ tr h => ⟨tr, h, List.prefix_refl _, List.prefix_refl _⟩, fun _ h => h, fun _ h => h,
    fun _ h => h, fun _ h => h, fun _ _ h => h⟩

theorem Grows.trans {s s' s'' : SolverState N S F} (h : Grows s s') (h' : Grows s' s'') :
    Grows s s'' where
  toExtends := h.toExtends.trans h'.toExtends
  vars := h.vars.trans h'.vars
  gates := fun r g hg => h'.gates r g (h.gates r g hg)
  auxs := fun vs a ha => h'.auxs vs a (h.auxs vs a ha)
  trackers := by
    intro name tr htr
    obtain ⟨tr', htr', hv, hh⟩ := h.trackers name tr htr
    obtain ⟨tr'', htr'', hv', hh'⟩ := h'.trackers name tr' htr'
    exact ⟨tr'', htr'', hv.trans hv', hh.trans hh'⟩
  packages := fun _ hx => h'.packages (h.packages hx)
  solvables := fun _ hx => h'.solvables (h.solvables hx)
  allowMultiple := fun _ hx => h'.allowMultiple (h.allowMultiple hx)
  assertions := fun _ hx => h'.assertions (h.assertions hx)
  requirers := fun g _ hx => h'.requirers g (h.requirers g hx)

section Mono

variable {P : DependencyProvider N S} {s s' : SolverState N S F}

theorem IsVar.mono {p : SolvableIdOrRoot S} {v : VariableId} (h : s.IsVar p v)
    (hg : VariableMap.Grows s.variableMap s'.variableMap) : s'.IsVar p v := hg.varOf h

theorem AreVars.mono {l : List S} {vars : List VariableId} (h : AreVars s l vars)
    (hg : VariableMap.Grows s.variableMap s'.variableMap) : AreVars s' l vars :=
  h.imp fun _ _ hx => hg.lookup _ _ hx

theorem CandidateVars.mono {r : Requirement} {vars : List (List VariableId)}
    (h : CandidateVars P s r vars) (hg : VariableMap.Grows s.variableMap s'.variableMap) :
    CandidateVars P s' r vars := List.Forall₂.imp (fun _ _ hx => AreVars.mono hx hg) h

/-- The variables of a list of solvables are determined by the list. -/
theorem AreVars.unique {l : List S} {vars vars' : List VariableId} (h : AreVars s l vars)
    (h' : AreVars s l vars') : vars = vars' :=
  List.right_unique_forall₂' (fun _ _ _ ha hb => Option.some.inj (ha.symm.trans hb)) h h'

theorem CandidateVars.unique {r : Requirement} {vars vars' : List (List VariableId)}
    (h : CandidateVars P s r vars) (h' : CandidateVars P s r vars') : vars = vars' := by
  have hu : Relator.RightUnique (AreVars s) := fun _ _ _ ha hb => AreVars.unique ha hb
  exact List.right_unique_forall₂' hu h h'

theorem IsDisjunction.mono {conj : List VersionSetId} {literals : List Literal}
    (h : IsDisjunction P s conj literals)
    (hg : VariableMap.Grows s.variableMap s'.variableMap) : IsDisjunction P s' conj literals where
  sound := by
    intro l hl
    obtain ⟨vs, hvs, ⟨x, hx, v, hv, rfl⟩ | ⟨hnil, v, hv, rfl⟩⟩ := h.sound l hl
    · exact ⟨vs, hvs, .inl ⟨x, hx, v, hv.mono hg, rfl⟩⟩
    · exact ⟨vs, hvs, .inr ⟨hnil, v, hg.origin hv, rfl⟩⟩
  complete := by
    intro vs hvs
    obtain ⟨h₁, h₂⟩ := h.complete vs hvs
    refine ⟨fun x hx => ?_, fun hnil => ?_⟩
    · obtain ⟨v, hv, hl⟩ := h₁ x hx
      exact ⟨v, hv.mono hg, hl⟩
    · obtain ⟨v, hv, hl⟩ := h₂ hnil
      exact ⟨v, hg.origin hv, hl⟩

theorem TrackerOk.mono {name : N} {tr : AtMostOnceTracker VariableId} (h : TrackerOk P s name tr)
    (hg : VariableMap.Grows s.variableMap s'.variableMap) : TrackerOk P s' name tr where
  vars_nodup := h.vars_nodup
  helpers_nodup := h.helpers_nodup
  vars := by
    intro v hv
    obtain ⟨x, hx, hxv⟩ := h.vars v hv
    exact ⟨x, hx, hxv.mono hg⟩
  helpers := fun v hv => hg.origin (h.helpers v hv)

end Mono

end SolverState

end Resolvo
