import Resolvo.Correctness.Handlers

/-!
# `Correctness.RequirementHandler` — encoding requirements and conditions

The handler of a requirement interns and registers its candidates, allocates the condition literals and
adds the requires clauses, either one of its own for the solvable or an implication to the gate that
shares the clause among solvables.
-/

set_option linter.unusedSectionVars false

namespace Resolvo

open Sat Relation SolverState

variable {N S F : Type} [DecidableEq N] [DecidableEq S]

section Requirement

variable {P : DependencyProvider N S} {problem : Problem S} {A : RunFacts} {enc enc' : Encoder N S F}

/-! ## Condition literals -/

/-- The literals of one conjunct: the non-matching candidates, or the negated at-least-one variable. -/
structure IsComplement (P : DependencyProvider N S) (s : SolverState N S F) (vs : VersionSetId)
    (literals : List Literal) : Prop where
  sound : ∀ l ∈ literals,
    (∃ x ∈ P.nonMatchingCandidates vs, ∃ v, s.IsVar (.solvable x) v ∧ l = positive v) ∨
    (P.nonMatchingCandidates vs = [] ∧ ∃ v,
      s.variableMap.origins[v]? = some (.atLeastOne (P.versionSetName vs)) ∧ l = negative v)
  complete : (∀ x ∈ P.nonMatchingCandidates vs,
      ∃ v, s.IsVar (.solvable x) v ∧ positive v ∈ literals) ∧
    (P.nonMatchingCandidates vs = [] → ∃ v,
      s.variableMap.origins[v]? = some (.atLeastOne (P.versionSetName vs)) ∧ negative v ∈ literals)

theorem complementLiterals_spec (hP : P.WellFormed) (hg : EncGood P problem A enc)
    (vs : VersionSetId) (hname : A.Ordered P problem → enc.Processed (P.versionSetName vs)) :
    EncSteps P problem A enc (enc.complementLiterals P (Encoder.complementOf P vs)).2 ∧
    IsComplement P (enc.complementLiterals P (Encoder.complementOf P vs)).2.state vs
      (enc.complementLiterals P (Encoder.complementOf P vs)).1 ∧
    ∀ v, positive v ∈ (enc.complementLiterals P (Encoder.complementOf P vs)).1 →
      (enc.complementLiterals P (Encoder.complementOf P vs)).2.Registered P v := by
  by_cases hnil : P.nonMatchingCandidates vs = []
  · have hcomp : Encoder.complementOf P vs = .empty vs := by
      simp [Encoder.complementOf, hnil]
    rw [hcomp]
    have hstep : EncSteps P problem A enc (enc.atLeastOneVariable (P.versionSetName vs)).2 :=
      .single (.atLeastOne enc _)
    have hg' := EncSteps.good hstep hP hg
    have horigin : (enc.atLeastOneVariable (P.versionSetName vs)).2.state.variableMap.origins[
        (enc.atLeastOneVariable (P.versionSetName vs)).1]? =
          some (.atLeastOne (P.versionSetName vs)) := by
      refine (hg'.ok.tables.atLeastOne _ _).mpr ?_
      rcases enc.atLeastOneVariable_cases (P.versionSetName vs) with ⟨v, hv, h⟩ | ⟨hn, h⟩ <;> rw [h]
      · exact hv
      · obtain ⟨h₁, -⟩ := Option.or_eq_none_iff.mp hn
        simp [h₁]
    refine ⟨hstep, ⟨?_, ?_, ?_⟩, ?_⟩
    · intro l hl
      exact .inr ⟨hnil, _, horigin, by simpa [Encoder.complementLiterals] using hl⟩
    · rw [hnil]
      simp
    · exact fun _ => ⟨_, horigin, by simp [Encoder.complementLiterals]⟩
    · intro v hv
      simp [Encoder.complementLiterals, positive, negative] at hv
  · have hcomp : Encoder.complementOf P vs = .solvables vs (P.nonMatchingCandidates vs) := by
      simp [Encoder.complementOf, hnil]
    rw [hcomp]
    obtain ⟨hi, hvars⟩ := internSolvables_spec hP (P.nonMatchingCandidates vs) hg
    have hg' := EncSteps.good hi hP hg
    have heq : enc.complementLiterals P (.solvables vs (P.nonMatchingCandidates vs)) =
        ((enc.internSolvables (P.nonMatchingCandidates vs)).1.map positive,
          ((enc.internSolvables (P.nonMatchingCandidates vs)).1.map
            fun v => (P.versionSetName vs, v)).foldl
              (fun enc c => enc.registerForbidTarget c.1 c.2)
              (enc.internSolvables (P.nonMatchingCandidates vs)).2) := by
      simp only [Encoder.complementLiterals, List.foldl_map]
    rw [heq]
    obtain ⟨hr, hreg⟩ := registerAll_spec hP hg' ((enc.internSolvables
      (P.nonMatchingCandidates vs)).1.map fun v => (P.versionSetName vs, v)) (by
        intro c hc
        obtain ⟨v, hv, rfl⟩ := List.mem_map.mp hc
        obtain ⟨x, hx, hxv⟩ := List.Forall₂.exists_of_mem_right hvars hv
        exact ⟨⟨x, hP.nonMatching_mem vs x hx, hxv⟩, fun hh => EncSteps.processed hi (hname hh)⟩)
    have hgrow := (EncSteps.grows hr hP hg'.ok).vars
    refine ⟨hi.trans hr, ⟨?_, ?_, fun h => absurd h hnil⟩, ?_⟩
    · intro l hl
      obtain ⟨v, hv, rfl⟩ := List.mem_map.mp hl
      obtain ⟨x, hx, hxv⟩ := List.Forall₂.exists_of_mem_right hvars hv
      exact .inl ⟨x, hx, v, IsVar.mono hxv hgrow, rfl⟩
    · intro x hx
      obtain ⟨v, hv, hxv⟩ := List.Forall₂.exists_of_mem_left hvars hx
      exact ⟨v, IsVar.mono hxv hgrow, List.mem_map_of_mem hv⟩
    · intro v hv
      obtain ⟨w, hw, hwv⟩ := List.mem_map.mp hv
      obtain rfl : w = v := congrArg Lit.var hwv
      exact hreg (P.versionSetName vs, w) (List.mem_map_of_mem hw)

theorem IsComplement.mono {s s' : SolverState N S F} {vs : VersionSetId} {literals : List Literal}
    (h : IsComplement P s vs literals) (hg : VariableMap.Grows s.variableMap s'.variableMap) :
    IsComplement P s' vs literals where
  sound := by
    intro l hl
    rcases h.sound l hl with ⟨x, hx, v, hv, rfl⟩ | ⟨hnil, v, hv, rfl⟩
    · exact .inl ⟨x, hx, v, hv.mono hg, rfl⟩
    · exact .inr ⟨hnil, v, hg.origin hv, rfl⟩
  complete := by
    refine ⟨fun x hx => ?_, fun hnil => ?_⟩
    · obtain ⟨v, hv, hl⟩ := h.complete.1 x hx
      exact ⟨v, hv.mono hg, hl⟩
    · obtain ⟨v, hv, hl⟩ := h.complete.2 hnil
      exact ⟨v, hg.origin hv, hl⟩

theorem disjunctLiterals_spec (hP : P.WellFormed) (conj : List VersionSetId)
    (hg : EncGood P problem A enc)
    (hname : A.Ordered P problem → ∀ vs ∈ conj, enc.Processed (P.versionSetName vs)) :
    EncSteps P problem A enc (enc.disjunctLiterals P (conj.map (Encoder.complementOf P))).2 ∧
    (enc.disjunctLiterals P (conj.map (Encoder.complementOf P))).2.state.IsDisjunction P conj
      (enc.disjunctLiterals P (conj.map (Encoder.complementOf P))).1 ∧
    ∀ v, positive v ∈ (enc.disjunctLiterals P (conj.map (Encoder.complementOf P))).1 →
      (enc.disjunctLiterals P (conj.map (Encoder.complementOf P))).2.Registered P v := by
  induction conj generalizing enc with
  | nil =>
      refine ⟨.refl, ⟨fun l hl => ?_, fun vs hvs => ?_⟩, fun v hv => ?_⟩
      · simp [Encoder.disjunctLiterals] at hl
      · cases hvs
      · simp [Encoder.disjunctLiterals] at hv
  | cons vs conj ih =>
      obtain ⟨h₁, hc, hr⟩ := complementLiterals_spec hP hg vs fun hh =>
        hname hh vs List.mem_cons_self
      have hg' := EncSteps.good h₁ hP hg
      obtain ⟨h₂, hd, hr'⟩ := ih hg' fun hh vs' hvs' =>
        EncSteps.processed h₁ (hname hh vs' (List.mem_cons_of_mem _ hvs'))
      have hc' := hc.mono (EncSteps.grows h₂ hP hg'.ok).vars
      refine ⟨h₁.trans h₂, ⟨fun l hl => ?_, fun vs' hvs' => ?_⟩, fun v hv => ?_⟩
      · rcases List.mem_append.mp hl with hl | hl
        · exact ⟨vs, List.mem_cons_self, hc'.sound l hl⟩
        · obtain ⟨vs', hvs', h⟩ := hd.sound l hl
          exact ⟨vs', List.mem_cons_of_mem _ hvs', h⟩
      · rcases List.mem_cons.mp hvs' with rfl | hvs'
        · refine ⟨fun x hx => ?_, fun hnil => ?_⟩
          · obtain ⟨v, hv, hl⟩ := hc'.complete.1 x hx
            exact ⟨v, hv, List.mem_append_left _ hl⟩
          · obtain ⟨v, hv, hl⟩ := hc'.complete.2 hnil
            exact ⟨v, hv, List.mem_append_left _ hl⟩
        · obtain ⟨hs, he⟩ := hd.complete vs' hvs'
          refine ⟨fun x hx => ?_, fun hnil => ?_⟩
          · obtain ⟨v, hv, hl⟩ := hs x hx
            exact ⟨v, hv, List.mem_append_right _ hl⟩
          · obtain ⟨v, hv, hl⟩ := he hnil
            exact ⟨v, hv, List.mem_append_right _ hl⟩
      · rcases List.mem_append.mp hv with hv | hv
        · exact EncSteps.registered h₂ hP hg' (hr v hv)
        · exact hr' v hv

/-- A disjunction of the state that stands for a disjunct of a condition. -/
def IsDisjunctId (P : DependencyProvider N S) (s : SolverState N S F) (c : ConditionId)
    (conj : List VersionSetId) (d : DisjunctionId) : Prop :=
  ∃ disjunction, s.disjunctions[d]? = some disjunction ∧ disjunction.condition = c ∧
    s.IsDisjunction P conj disjunction.literals

theorem IsDisjunctId.mono {s s' : SolverState N S F} {c : ConditionId} {conj : List VersionSetId}
    {d : DisjunctionId} (h : IsDisjunctId P s c conj d) (hg : s.Grows s') :
    IsDisjunctId P s' c conj d := by
  obtain ⟨disjunction, hd, hc, hdis⟩ := h
  exact ⟨disjunction, getElem?_of_isPrefix hg.disjunctions hd, hc, hdis.mono hg.vars⟩

theorem allocDisjunctions_spec (hP : P.WellFormed) (c : ConditionId) (conjs : List (List VersionSetId))
    (hg : EncGood P problem A enc) (hconj : ∀ conj ∈ conjs, conj ∈ (P.resolveCondition c).toDnf)
    (hname : A.Ordered P problem → ∀ conj ∈ conjs, ∀ vs ∈ conj, enc.Processed (P.versionSetName vs)) :
    EncSteps P problem A enc (Encoder.allocDisjunctions P c enc
      (conjs.map fun conj => conj.map (Encoder.complementOf P))).2 ∧
    List.Forall₂ (fun conj d => ∃ id, d = some id ∧ IsDisjunctId P (Encoder.allocDisjunctions P c enc
        (conjs.map fun conj => conj.map (Encoder.complementOf P))).2.state c conj id) conjs
      (Encoder.allocDisjunctions P c enc
        (conjs.map fun conj => conj.map (Encoder.complementOf P))).1 := by
  induction conjs generalizing enc with
  | nil => exact ⟨.refl, .nil⟩
  | cons conj conjs ih =>
      obtain ⟨h₁, hd, hr⟩ := disjunctLiterals_spec hP conj hg fun hh => hname hh conj List.mem_cons_self
      have hg₁ := EncSteps.good h₁ hP hg
      have hmem := hconj conj List.mem_cons_self
      have hsplit : Encoder.allocDisjunctions P c enc
          ((conj :: conjs).map fun conj => conj.map (Encoder.complementOf P)) =
          let e := enc.disjunctLiterals P (conj.map (Encoder.complementOf P))
          let rest := Encoder.allocDisjunctions P c (e.2.addDisjunction ⟨e.1, c⟩)
            (conjs.map fun conj => conj.map (Encoder.complementOf P))
          (some e.2.state.disjunctions.length :: rest.1, rest.2) := rfl
      rw [hsplit]
      generalize enc.disjunctLiterals P (conj.map (Encoder.complementOf P)) = e at h₁ hd hr hg₁ ⊢
      obtain ⟨literals, e⟩ := e
      have h₂ : EncSteps P problem A e (e.addDisjunction ⟨literals, c⟩) :=
        .single (.disjunction e ⟨literals, c⟩ conj hmem hd hr)
      have hg₂ := EncSteps.good h₂ hP hg₁
      have hnew : IsDisjunctId P (e.addDisjunction ⟨literals, c⟩).state c conj
          e.state.disjunctions.length := by
        refine ⟨⟨literals, c⟩, ?_, rfl, hd.mono (.refl _)⟩
        simp [Encoder.addDisjunction]
      obtain ⟨h₃, hrest⟩ := ih hg₂ (fun conj' hc' => hconj conj' (List.mem_cons_of_mem _ hc'))
        fun hh conj' hc' vs hvs => EncSteps.processed (h₁.trans h₂)
          (hname hh conj' (List.mem_cons_of_mem _ hc') vs hvs)
      refine ⟨(h₁.trans h₂).trans h₃, .cons ⟨_, rfl, ?_⟩ hrest⟩
      exact hnew.mono (EncSteps.grows h₃ hP hg₂.ok)

/-! ## Requires clauses -/

/-- `p` declares the requirement, under the condition that the disjunct belongs to. -/
def DeclaresUnder (P : DependencyProvider N S) (problem : Problem S) (s : SolverState N S F)
    (p : SolvableIdOrRoot S) (r : Requirement) : Option DisjunctionId → Prop
  | none => Declares P problem s p ⟨none, r⟩
  | some d => ∃ c conj, Declares P problem s p ⟨some c, r⟩ ∧ conj ∈ (P.resolveCondition c).toDnf ∧
      IsDisjunctId P s c conj d

theorem DeclaresUnder.mono {s s' : SolverState N S F} {p : SolvableIdOrRoot S} {r : Requirement}
    {condition : Option DisjunctionId} (h : DeclaresUnder P problem s p r condition)
    (hg : s.Grows s') : DeclaresUnder P problem s' p r condition := by
  cases condition with
  | none => exact Declares.mono h hg
  | some d =>
      obtain ⟨c, conj, hr, hconj, hid⟩ := h
      exact ⟨c, conj, hr.mono hg, hconj, hid.mono hg⟩

/-- A requirement under one disjunct of its condition is ready to be encoded for a solvable. -/
structure Encodable (P : DependencyProvider N S) (problem : Problem S) (s : SolverState N S F)
    (p : SolvableIdOrRoot S) (v : VariableId) (r : Requirement) (vars : List (List VariableId))
    (condition : Option DisjunctionId) : Prop where
  var : s.IsVar p v
  candidates : s.requirementToSortedCandidates.get? r = some vars
  declared : DeclaresUnder P problem s p r condition

theorem Encodable.mono {s s' : SolverState N S F} {p : SolvableIdOrRoot S} {v : VariableId}
    {r : Requirement} {vars : List (List VariableId)} {condition : Option DisjunctionId}
    (h : Encodable P problem s p v r vars condition) (hg : s.Grows s') :
    Encodable P problem s' p v r vars condition where
  var := h.var.mono hg.vars
  candidates := hg.candidates r vars h.candidates
  declared := h.declared.mono hg

/-- The literals of a requires clause after its parent. -/
def requiresLiterals (s : SolverState N S F) (condition : Option DisjunctionId)
    (vars : List (List VariableId)) : List Literal :=
  ((Encoder.conditionLiterals s condition).map Prod.snd).getD [] ++ vars.flatten.map positive

theorem Encodable.kindLiterals {s : SolverState N S F} {p : SolvableIdOrRoot S} {v : VariableId}
    {r : Requirement} {vars : List (List VariableId)} {condition : Option DisjunctionId}
    (h : Encodable P problem s p v r vars condition) :
    s.kindLiterals (.requires v condition r) = negative v :: requiresLiterals s condition vars := by
  simp only [SolverState.kindLiterals, Clause.literals, requiresLiterals, Encoder.conditionLiterals,
    IndexMap.getD, h.candidates, Option.getD_some]
  cases condition with
  | none => simp
  | some d =>
      obtain ⟨c, conj, -, -, disjunction, hd, -, -⟩ := h.declared
      simp [hd]

/-- The initial watches of a requires clause. -/
theorem requires_cases (v : VariableId) (r : Requirement) (candidates : List VariableId)
    (condition : Option (DisjunctionId × List Literal)) (t : DecisionTracker) :
    let literals := (condition.map Prod.snd).getD [] ++ candidates.map positive
    let w := WatchedLiterals.requires (N := N) v r candidates condition t
    (literals = [] ∧ w.1 = none ∧ w.2.1 = false) ∨
    (∃ l ∈ literals, t.eval l ≠ some false ∧ w.1 = some (negative v, l) ∧ w.2.1 = false) ∨
    (∃ l ∈ literals, (∀ l' ∈ literals, t.eval l' = some false) ∧ w.1 = some (negative v, l) ∧
      w.2.1 = !(t.assignedValue v = some false)) := by
  simp only [WatchedLiterals.requires]
  generalize (condition.map Prod.snd).getD [] ++ candidates.map positive = literals
  cases literals with
  | nil => exact .inl ⟨rfl, rfl, rfl⟩
  | cons first rest =>
      simp only
      split
      · next l hl =>
          refine .inr (.inl ⟨l, List.mem_of_find?_eq_some hl, ?_, rfl, rfl⟩)
          simpa using List.find?_some hl
      · next hnone =>
          refine .inr (.inr ⟨first, List.mem_cons_self, fun l' hl' => ?_, rfl, rfl⟩)
          simpa using List.find?_eq_none.mp hnone l' hl'

/-- A requires clause is noticed: where all literals but the parent's are false, the parent is false or
    the encoder acts on the clause. -/
theorem requires_noticed {s : SolverState N S F} (v : VariableId) (r : Requirement)
    (condition : Option DisjunctionId) {literals : List Literal}
    {w : Option Watches × Bool × Clause N} {o : EmitOutcome}
    (hcases : (literals = [] ∧ w.1 = none ∧ w.2.1 = false) ∨
      (∃ l ∈ literals, s.decisionTracker.eval l ≠ some false ∧ w.1 = some (negative v, l) ∧
        w.2.1 = false) ∨
      (∃ l ∈ literals, (∀ l' ∈ literals, s.decisionTracker.eval l' = some false) ∧
        w.1 = some (negative v, l) ∧
        w.2.1 = !(s.decisionTracker.assignedValue v = some false)))
    (hconflict : w.2.1 = true → o = .flagged ∨ s.value v = none)
    (hassertion : literals = [] → ∃ v flag, o = .assertion v flag)
    (hdistinct : ∀ l ∈ literals, l ≠ negative v)
    (hforced : ∀ l, o = .forced l → s.decisionTracker.eval l ≠ some false ∧
      ∀ o, s.variableMap.origins[l.var]? = some o → o.OneSided → l.negate = false) :
    Noticed A s w.1 (.requires v condition r) o where
  live := by
    intro _ _ ho watched hw
    rcases hcases with ⟨-, hnone, -⟩ | ⟨l, -, hl, hsome, -⟩ | ⟨l, -, -, hsome, hc⟩
    · rw [hnone] at hw
      cases hw
    · obtain rfl := Option.some.inj (hsome.symm.trans hw)
      exact .inr hl
    · obtain rfl := Option.some.inj (hsome.symm.trans hw)
      refine .inl fun hf => ?_
      have htrue : s.value v = some true := eval_negative.mp hf
      have hconf : w.2.1 = true := by
        rw [hc, show s.decisionTracker.assignedValue v = some true from htrue]
        rfl
      rcases hconflict hconf with hflag | hnone
      · exact ho hflag
      · rw [hnone] at htrue
        cases htrue
  unwatched := by
    intro hw
    rcases hcases with ⟨hnil, -, -⟩ | ⟨l, -, -, hsome, -⟩ | ⟨l, -, -, hsome, -⟩
    · exact hassertion hnil
    · rw [hsome] at hw
      cases hw
    · rw [hsome] at hw
      cases hw
  distinct := by
    intro _ watched hw
    rcases hcases with ⟨-, hnone, -⟩ | ⟨l, hl, -, hsome, -⟩ | ⟨l, hl, -, hsome, -⟩
    · rw [hnone] at hw
      cases hw
    · obtain rfl := Option.some.inj (hsome.symm.trans hw)
      exact (hdistinct l hl).symm
    · obtain rfl := Option.some.inj (hsome.symm.trans hw)
      exact (hdistinct l hl).symm
  forced := hforced

/-- A candidate's variable is a solvable's. -/
theorem candidateVars_solvable {s : SolverState N S F} {r : Requirement}
    {vars : List (List VariableId)} (h : s.CandidateVars P r vars) {v : VariableId}
    (hv : v ∈ vars.flatten) :
    ∃ vs ∈ r.versionSets P, ∃ x ∈ P.sortedCandidates vs, s.IsVar (.solvable x) v := by
  obtain ⟨l, hl, hvl⟩ := List.mem_flatten.mp hv
  obtain ⟨xs, hxs, hvars⟩ := List.Forall₂.exists_of_mem_right h hl
  obtain ⟨vs, hvs, rfl⟩ := List.mem_map.mp hxs
  obtain ⟨x, hx, hxv⟩ := List.Forall₂.exists_of_mem_right hvars hvl
  exact ⟨vs, hvs, x, hx, hxv⟩

/-- The literals of a requires clause after its parent are candidates and at-least-one variables. -/
theorem Encodable.literal_cases {p : SolvableIdOrRoot S} {v : VariableId} {r : Requirement}
    {vars : List (List VariableId)} {condition : Option DisjunctionId}
    (h : Encodable P problem enc.state p v r vars condition) (hg : EncGood P problem A enc) {l : Literal}
    (hl : l ∈ requiresLiterals enc.state condition vars) :
    (∃ x w, enc.state.IsVar (.solvable x) w ∧ l = positive w) ∨
      ∃ name w, enc.state.variableMap.origins[w]? = some (.atLeastOne name) ∧ l = negative w := by
  rcases List.mem_append.mp hl with hl | hl
  · cases condition with
    | none => simp [Encoder.conditionLiterals] at hl
    | some d =>
        obtain ⟨c, conj, -, -, disjunction, hd, -, hdis⟩ := h.declared
        simp only [Encoder.conditionLiterals, hd, Option.map_some, Option.getD_some] at hl
        obtain ⟨vs, -, ⟨x, -, w, hw, rfl⟩ | ⟨-, w, hw, rfl⟩⟩ := hdis.sound l hl
        · exact .inl ⟨x, w, hw, rfl⟩
        · exact .inr ⟨_, w, hw, rfl⟩
  · obtain ⟨w, hw, rfl⟩ := List.mem_map.mp hl
    obtain ⟨-, -, x, -, hx⟩ := candidateVars_solvable (hg.ok.tables.candidates r vars h.candidates) hw
    exact .inl ⟨x, w, hx, rfl⟩

/-- The literals after the parent are not the root's. -/
theorem Encodable.ne_root {p : SolvableIdOrRoot S} {v : VariableId} {r : Requirement}
    {vars : List (List VariableId)} {condition : Option DisjunctionId}
    (h : Encodable P problem enc.state p v r vars condition) (hg : EncGood P problem A enc) {l : Literal}
    (hl : l ∈ requiresLiterals enc.state condition vars) : l.var ≠ VariableId.root := by
  have hwf := hg.ok.tables.vars
  rcases h.literal_cases hg hl with ⟨x, w, hw, rfl⟩ | ⟨name, w, hw, rfl⟩
  · exact hwf.lookup_ne_root hw
  · intro hroot
    have := (hwf.root w).mpr hroot
    rw [hw] at this
    cases this

theorem Encodable.ne_parent {p : SolvableIdOrRoot S} {v : VariableId} {r : Requirement}
    {vars : List (List VariableId)} {condition : Option DisjunctionId}
    (h : Encodable P problem enc.state p v r vars condition) (hg : EncGood P problem A enc) {l : Literal}
    (hl : l ∈ requiresLiterals enc.state condition vars) : l ≠ negative v := by
  rcases h.literal_cases hg hl with ⟨x, w, hw, rfl⟩ | ⟨name, w, hw, rfl⟩
  · simp [positive, negative]
  · intro heq
    obtain rfl : w = v := congrArg Lit.var heq
    -- an at-least-one variable stands for no solvable
    cases p with
    | root =>
        have hroot : VariableId.root = w := Option.some.inj h.var
        have := (hg.ok.tables.vars.root w).mpr hroot.symm
        rw [hw] at this
        cases this
    | solvable x =>
        have := (hg.ok.tables.vars.lookup_iff x w).mp h.var
        rw [hw] at this
        cases this

theorem toDnf_ne_nil (c : Condition) : ∀ conj ∈ c.toDnf, conj ≠ [] := by
  induction c with
  | requirement vs => simp [Condition.toDnf]
  | binary op lhs rhs ihl ihr =>
      cases op with
      | or =>
          intro conj h
          rcases List.mem_append.mp h with h | h
          · exact ihl conj h
          · exact ihr conj h
      | and =>
          intro conj h
          obtain ⟨l, hl, h⟩ := List.mem_flatMap.mp h
          obtain ⟨r, -, rfl⟩ := List.mem_map.mp h
          have := ihl l hl
          simp [this]

/-- Only a requirement without condition and without candidates has no literal but its parent. -/
theorem Encodable.literals_nil {p : SolvableIdOrRoot S} {v : VariableId} {r : Requirement}
    {vars : List (List VariableId)} {condition : Option DisjunctionId}
    (h : Encodable P problem enc.state p v r vars condition)
    (hnil : requiresLiterals enc.state condition vars = []) :
    condition = none ∧ vars.flatten = [] := by
  obtain ⟨hcond, hvars⟩ := List.append_eq_nil_iff.mp hnil
  refine ⟨?_, by simpa using hvars⟩
  cases condition with
  | none => rfl
  | some d =>
      obtain ⟨c, conj, -, hconj, disjunction, hd, -, hdis⟩ := h.declared
      simp only [Encoder.conditionLiterals, hd, Option.map_some, Option.getD_some] at hcond
      obtain ⟨vs, hvs⟩ := List.exists_mem_of_ne_nil _ (toDnf_ne_nil _ conj hconj)
      obtain ⟨hsome, hempty⟩ := hdis.complete vs hvs
      -- the complement of a conjunct has a literal
      cases hnm : P.nonMatchingCandidates vs with
      | nil =>
          obtain ⟨w, -, hw⟩ := hempty hnm
          rw [hcond] at hw
          cases hw
      | cons x rest =>
          obtain ⟨w, -, hw⟩ := hsome x (hnm ▸ List.mem_cons_self)
          rw [hcond] at hw
          cases hw

theorem Encodable.closed {s : SolverState N S F} {p : SolvableIdOrRoot S} {v : VariableId}
    {r : Requirement} {vars : List (List VariableId)} {condition : Option DisjunctionId}
    (h : Encodable P problem s p v r vars condition) : s.Closed (.requires v condition r) := by
  refine ⟨⟨vars, h.candidates⟩, ?_⟩
  rintro d rfl
  obtain ⟨c, conj, -, -, disjunction, hd, -, -⟩ := h.declared
  exact ⟨disjunction, hd⟩

theorem Encodable.origin {s : SolverState N S F} {p : SolvableIdOrRoot S} {v : VariableId}
    {r : Requirement} {vars : List (List VariableId)} {condition : Option DisjunctionId}
    (h : Encodable P problem s p v r vars condition) :
    Origin P problem s (.requires v condition r) := by
  have hd := h.declared
  cases condition with
  | none => exact .inr ⟨p, h.var, hd⟩
  | some d =>
      obtain ⟨c, conj, hr, hconj, disjunction, hdis, rfl, hid⟩ := hd
      exact ⟨p, _, conj, disjunction, h.var, hr, hdis, hconj, hid⟩

/-- A requires clause without further literals is recorded as an assertion. -/
theorem Encodable.assertion {p : SolvableIdOrRoot S} {v : VariableId} {r : Requirement}
    {vars : List (List VariableId)} {condition : Option DisjunctionId}
    (h : Encodable P problem enc.state p v r vars condition) {w : Option Watches × Bool × Clause N}
    {t : DecisionTracker} (hcases : (requiresLiterals enc.state condition vars = [] ∧ w.1 = none ∧
        w.2.1 = false) ∨
      (∃ l ∈ requiresLiterals enc.state condition vars, t.eval l ≠ some false ∧
        w.1 = some (negative v, l) ∧ w.2.1 = false) ∨
      (∃ l ∈ requiresLiterals enc.state condition vars,
        (∀ l' ∈ requiresLiterals enc.state condition vars, t.eval l' = some false) ∧
        w.1 = some (negative v, l) ∧ w.2.1 = !(t.assignedValue v = some false)))
    (hnil : requiresLiterals enc.state condition vars = []) :
    ∃ v' flag, Encoder.requiresOutcome v w.2.1 (vars.all List.isEmpty && condition.isNone) =
      .assertion v' flag := by
  obtain ⟨rfl, hvars⟩ := h.literals_nil hnil
  have hall : vars.all List.isEmpty = true := by
    rw [List.all_eq_true]
    exact fun l hl => List.isEmpty_iff.mpr (List.flatten_eq_nil_iff.mp hvars l hl)
  have hconf : w.2.1 = false := by
    rcases hcases with ⟨-, -, hc⟩ | ⟨l, hl, -⟩ | ⟨l, hl, -⟩
    · exact hc
    · rw [hnil] at hl
      cases hl
    · rw [hnil] at hl
      cases hl
  refine ⟨v, false, ?_⟩
  simp [Encoder.requiresOutcome, hconf, hall]

/-- A requires clause of a solvable of its own. -/
theorem emitRequires_step {p : SolvableIdOrRoot S} {v : VariableId} {r : Requirement}
    {vars : List (List VariableId)} {condition : Option DisjunctionId}
    (h : Encodable P problem enc.state p v r vars condition) (hg : EncGood P problem A enc) :
    let w := WatchedLiterals.requires (N := N) v r vars.flatten
      (Encoder.conditionLiterals enc.state condition) enc.state.decisionTracker
    EncStep P problem A enc (enc.emit P w.1 (.requires v condition r)
      (Encoder.requiresOutcome v w.2.1 (vars.all List.isEmpty && condition.isNone))) := by
  have hlits := h.kindLiterals
  have hcases := requires_cases (N := N) v r vars.flatten
    (Encoder.conditionLiterals enc.state condition) enc.state.decisionTracker
  have hnoticed := requires_noticed (A := A) v r condition
    (o := Encoder.requiresOutcome v (WatchedLiterals.requires (N := N) v r vars.flatten
      (Encoder.conditionLiterals enc.state condition) enc.state.decisionTracker).2.1
        (vars.all List.isEmpty && condition.isNone)) hcases
    (fun hc => .inl (by rw [hc]; rfl)) (h.assertion hcases) (fun l hl => h.ne_parent hg hl)
    fun l hl => by
      simp only [Encoder.requiresOutcome] at hl
      split at hl
      · cases hl
      · split at hl <;> cases hl
  generalize WatchedLiterals.requires (N := N) v r vars.flatten
      (Encoder.conditionLiterals enc.state condition) enc.state.decisionTracker = w
        at hcases hnoticed ⊢
  obtain ⟨watched, conflict, kind⟩ := w
  simp only at hcases hnoticed ⊢
  refine .emit enc watched _ _ h.origin h.closed ?_ (fun hb => by cases hb) ?_ hnoticed
  · rintro w rfl
    rw [hlits]
    have hw : ∃ l ∈ requiresLiterals enc.state condition vars, w = (negative v, l) := by
      rcases hcases with ⟨-, hw, -⟩ | ⟨l, hl, -, hw, -⟩ | ⟨l, hl, -, hw, -⟩
      · cases hw
      · exact ⟨l, hl, Option.some.inj hw⟩
      · exact ⟨l, hl, Option.some.inj hw⟩
    obtain ⟨l, hl, rfl⟩ := hw
    exact ⟨List.mem_cons_self, List.mem_cons_of_mem _ hl, fun hb => by cases hb⟩
  · cases hconf : conflict with
    | true =>
        rcases hcases with ⟨-, -, hc⟩ | ⟨l, -, -, -, hc⟩ | ⟨l, hl, hall, -, hc⟩
        · rw [hconf] at hc
          cases hc
        · rw [hconf] at hc
          cases hc
        · refine ⟨⟨l, ?_, h.ne_root hg hl, hall l hl⟩, trivial⟩
          rw [hlits]
          exact List.mem_cons_of_mem _ hl
    | false =>
        simp only [Encoder.requiresOutcome, Bool.false_eq_true, if_false]
        split
        · next hempty =>
            refine ⟨?_, fun hf => by cases hf⟩
            rw [hlits]
            simp only [Bool.and_eq_true, Option.isNone_iff_eq_none] at hempty
            obtain ⟨hvars, rfl⟩ := hempty
            have hflat : vars.flatten = [] := by
              rw [List.flatten_eq_nil_iff]
              exact fun l hl => List.isEmpty_iff.mp (List.all_eq_true.mp hvars l hl)
            simp [requiresLiterals, Encoder.conditionLiterals, hflat]
        · trivial

/-- A requirement of a solvable is encoded: by a clause of its own, which is an assertion if nothing
    matches, or through the gate of the requirement. -/
def EncodesRequirement (s : SolverState N S F) (v : VariableId) (condition : Option DisjunctionId)
    (r : Requirement) : Prop :=
  (∃ id : ClauseId, s.clauses[id]? = some (.requires v condition r) ∧ (condition = none →
    ∃ vars, s.requirementToSortedCandidates.get? r = some vars ∧
      (vars.flatten = [] → (v, id) ∈ s.negativeAssertions))) ∨
  (condition = none ∧ ∃ gate, ∃ id : ClauseId, s.requiresAuxVars.get? r = some gate ∧
    s.clauses[id]? = some (.anyOf gate v) ∧ (v, id) ∈ s.requiresGateRequirers.getD gate [])

theorem EncodesRequirement.mono {s s' : SolverState N S F} {v : VariableId}
    {condition : Option DisjunctionId} {r : Requirement} (h : EncodesRequirement s v condition r)
    (hg : s.Grows s') : EncodesRequirement s' v condition r := by
  rcases h with ⟨id, hid, hempty⟩ | ⟨rfl, gate, id, hgate, hid, hm⟩
  · refine .inl ⟨id, getElem?_of_isPrefix hg.clauses hid, fun hc => ?_⟩
    obtain ⟨vars, hvars, hnil⟩ := hempty hc
    exact ⟨vars, hg.candidates r vars hvars, fun hf => hg.assertions (hnil hf)⟩
  · exact .inr ⟨rfl, gate, id, hg.gates r gate hgate, getElem?_of_isPrefix hg.clauses hid,
      hg.requirers gate hm⟩

/-! ## Shared requirements -/

/-- The gate of a requirement, allocated together with the disjunction on first use. -/
theorem requiresGate_spec (hP : P.WellFormed) (hg : EncGood P problem A enc) {r : Requirement}
    {vars : List (List VariableId)}
    (hcand : enc.state.requirementToSortedCandidates.get? r = some vars) (hne : vars.flatten ≠ []) :
    EncSteps P problem A enc (enc.requiresGate P r vars).2 ∧
    (enc.requiresGate P r vars).2.state.requiresAuxVars.get? r = some (enc.requiresGate P r vars).1 := by
  cases hgate : enc.state.requiresAuxVars.get? r with
  | some gate =>
      rw [Encoder.requiresGate_some P enc r vars hgate]
      exact ⟨.refl, hgate⟩
  | none =>
      have halloc : EncStep P problem A enc (enc.allocVar (.requiresGate r)) :=
        .alloc enc (.requiresGate r) trivial fun name h => by cases h
      have hg₁ : EncGood P problem A (enc.allocVar (.requiresGate r)) :=
        EncSteps.good (.single halloc) hP hg
      have horigin : (enc.allocVar (.requiresGate r)).state.variableMap.origins[
          enc.state.variableMap.origins.length]? = some (.requiresGate r) :=
        VariableMap.alloc_origin enc.state.variableMap (.requiresGate r)
      have hcases := requires_cases (N := N) enc.state.variableMap.origins.length r vars.flatten none
        enc.state.decisionTracker
      rw [Encoder.requiresGate_none P enc r vars hgate]
      dsimp only at hcases ⊢
      generalize WatchedLiterals.requires (N := N) enc.state.variableMap.origins.length r vars.flatten
        none enc.state.decisionTracker = w at hcases ⊢
      obtain ⟨watched, conflict, kind⟩ := w
      generalize hgl : enc.state.variableMap.origins.length = gate at hcases horigin ⊢
      simp only [Option.map_none, Option.getD_none, List.nil_append] at hcases ⊢
      have hfree : (enc.allocVar (.requiresGate r)).state.value gate = none := by
        cases hval : enc.state.value gate with
        | none => exact hval
        | some b => exact absurd (hg.trail.lt_of_assigned hval) (by rw [hgl]; exact lt_irrefl _)
      have hnoticed : Noticed A (enc.allocVar (.requiresGate r)).state watched
          (.requires gate none r) (Encoder.gateOutcome gate conflict) := by
        refine requires_noticed gate r none (w := (watched, conflict, kind)) hcases (fun _ => .inr hfree)
          (fun hnil => absurd (by simpa using hnil) hne) (fun l hl => ?_) fun l hl => ?_
        · obtain ⟨w, -, rfl⟩ := List.mem_map.mp hl
          simp [positive, negative]
        · simp only [Encoder.gateOutcome] at hl
          split at hl
          · cases hl
            refine ⟨fun hf => ?_, fun o ho hside => ?_⟩
            · have htrue : (enc.allocVar (.requiresGate r)).state.value gate = some true :=
                eval_negative.mp hf
              rw [hfree] at htrue
              cases htrue
            · obtain rfl := Option.some.inj (horigin.symm.trans ho)
              exact hside.elim
          · cases hl
      have hlits : (enc.allocVar (.requiresGate r)).state.kindLiterals (.requires gate none r) =
          negative gate :: vars.flatten.map positive := by
        simp only [SolverState.kindLiterals, Clause.literals]
        show negative gate :: ([] ++ ((enc.state.requirementToSortedCandidates.getD r []).flatten.map
          positive)) = _
        rw [IndexMap.getD, hcand]
        rfl
      have hemit : EncStep P problem A (enc.allocVar (.requiresGate r))
          ((enc.allocVar (.requiresGate r)).emit P watched (.requires gate none r)
            (Encoder.gateOutcome gate conflict)) := by
        refine .emit _ watched _ _ (.inl horigin) ⟨⟨vars, hcand⟩, fun d hd => by cases hd⟩ ?_
          (fun hb => by cases hb) ?_ hnoticed
        · rintro w rfl
          rw [hlits]
          have hw : ∃ l ∈ vars.flatten.map positive, w = (negative gate, l) := by
            rcases hcases with ⟨-, hw, -⟩ | ⟨l, hl, -, hw, -⟩ | ⟨l, hl, -, hw, -⟩
            · cases hw
            · exact ⟨l, hl, Option.some.inj hw⟩
            · exact ⟨l, hl, Option.some.inj hw⟩
          obtain ⟨l, hl, rfl⟩ := hw
          exact ⟨List.mem_cons_self, List.mem_cons_of_mem _ hl, fun hb => by cases hb⟩
        · cases hconf : conflict with
          | false => trivial
          | true =>
              rcases hcases with ⟨-, -, hc⟩ | ⟨l, -, -, -, hc⟩ | ⟨l, hl, hall, -, hc⟩
              · rw [hconf] at hc
                cases hc
              · rw [hconf] at hc
                cases hc
              · have hlnot : l ≠ negative gate := by
                  obtain ⟨w, -, rfl⟩ := List.mem_map.mp hl
                  simp [positive, negative]
                have hcv := hg₁.ok.tables.candidates r vars hcand
                refine ⟨?_, ?_, fun _ _ => rfl, ?_, ⟨l, ?_, hlnot, ?_⟩, trivial⟩
                · rw [hlits]
                  exact List.mem_cons_self
                · exact (List.getElem?_eq_some_iff.mp horigin).1
                · rw [hlits]
                  intro l' hl' hne
                  rcases List.mem_cons.mp hl' with rfl | hl'
                  · exact absurd rfl hne
                  · exact hall l' hl'
                · rw [hlits]
                  exact List.mem_cons_of_mem _ hl
                · obtain ⟨w, hw, rfl⟩ := List.mem_map.mp hl
                  obtain ⟨-, -, x, -, hx⟩ := candidateVars_solvable hcv hw
                  exact hg₁.ok.tables.vars.lookup_ne_root hx
      rw [(Encoder.independent_setGate r gate).emit]
      have hnew := Encoder.emit_new (P := P) (enc.allocVar (.requiresGate r)) watched
        (.requires gate none r) (Encoder.gateOutcome gate conflict)
      have hsame : ((enc.allocVar (.requiresGate r)).emit P watched (.requires gate none r)
          (Encoder.gateOutcome gate conflict)).state.requiresAuxVars = enc.state.requiresAuxVars := by
        obtain ⟨q, t, a, flags, panicked, h⟩ := (enc.allocVar (.requiresGate r)).emit_eq (P := P)
          watched (.requires gate none r) (Encoder.gateOutcome gate conflict)
        rw [h]
        rfl
      refine ⟨((ReflTransGen.single halloc).tail hemit).tail
        (.gate _ r gate (enc.allocVar (.requiresGate r)).state.clauses.length ?_ ?_ hnew), ?_⟩
      · rw [hsame]
        exact hgate
      · exact (hemit.grows hg₁.ok.tables).vars.origin horigin
      · exact IndexMap.get?_insert_self _ _ _

/-- The encoder acts on the implication from a requirer to its gate wherever it is not open. -/
theorem requirer_noticed {s : SolverState N S F} {v gate : VariableId}
    (hv : ∀ o, s.variableMap.origins[v]? = some o → ¬ o.OneSided) :
    Noticed A s (some (positive gate, negative v)) (.anyOf gate v)
      (Encoder.requirerOutcome v gate (s.value v) (s.value gate)) := by
  have hpos : s.value gate ≠ some false → s.decisionTracker.eval (positive gate) ≠ some false :=
    fun h hf => h (eval_positive.mp hf)
  have hneg : s.value v ≠ some true → s.decisionTracker.eval (negative v) ≠ some false :=
    fun h hf => h (eval_negative.mp hf)
  refine .binary rfl (fun _ _ ho => ?_) fun l hl => ?_
  · by_cases hq : s.value gate = some false
    · refine .inr (hneg fun hvt => ho ?_)
      rw [hq, hvt]
      rfl
    · exact .inl (hpos hq)
  · rcases hvv : s.value v with _ | _ | _ <;> rcases hq : s.value gate with _ | _ | _ <;>
      simp only [hvv, hq, Encoder.requirerOutcome] at hl <;> cases hl
    · exact ⟨hneg (by simp [hvv]), fun o ho hside => absurd hside (hv o ho)⟩
    · exact ⟨hpos (by simp [hq]), fun _ _ _ => rfl⟩

/-- The implication from a requirer to its gate. -/
theorem addSharedRequires_spec (hP : P.WellFormed) (hg : EncGood P problem A enc)
    {p : SolvableIdOrRoot S} {v : VariableId} {r : Requirement} {vars : List (List VariableId)}
    (h : Encodable P problem enc.state p v r vars none) (hroot : v ≠ VariableId.root)
    (hne : vars.flatten ≠ []) :
    EncSteps P problem A enc (enc.addSharedRequires P v r vars) ∧
    EncodesRequirement (enc.addSharedRequires P v r vars).state v none r := by
  obtain ⟨hsteps, hgate⟩ := requiresGate_spec hP hg h.candidates hne
  have hg' := EncSteps.good hsteps hP hg
  have h' := h.mono (EncSteps.grows hsteps hP hg.ok)
  rw [Encoder.addSharedRequires_eq P enc v r vars]
  generalize enc.requiresGate P r vars = e at hsteps hgate hg' h' ⊢
  obtain ⟨gate, e⟩ := e
  simp only at hsteps hgate hg' h' ⊢
  have horigin := hg'.ok.tables.gates r gate hgate
  have hgroot : gate ≠ VariableId.root := by
    intro hr
    have := (hg'.ok.tables.vars.root gate).mpr hr
    rw [horigin] at this
    cases this
  have hlits : e.state.kindLiterals (.anyOf gate v) = [positive gate, negative v] := rfl
  have hstep : EncStep P problem A e (e.emit P (some (positive gate, negative v)) (.anyOf gate v)
      (Encoder.requirerOutcome v gate (e.state.value v) (e.state.value gate))) := by
    refine .emit e _ _ _ (.inl ⟨p, r, hgate, h'.var, h'.declared⟩) trivial
      (fun w hw => Option.some.inj hw ▸ watchOk_pair _ _ _) (fun _ => rfl) ?_
      (requirer_noticed fun o ho hside => ?_)
    rotate_left
    · -- the requirer is not one-sided
      have hvar := h'.var
      cases p with
      | root => exact hroot (Option.some.inj hvar).symm
      | solvable x =>
          have hxo := (hg'.ok.tables.vars.lookup_iff x v).mp hvar
          obtain rfl := Option.some.inj (ho.symm.trans hxo)
          exact hside.elim
    have hopen : (e.state.value v ≠ some true ∨ e.state.value gate ≠ some false) →
        ∀ r', e.state.variableMap.origins[gate]? = some (.requiresGate r') →
          Open e.state.decisionTracker (e.state.kindLiterals (.anyOf gate v)) := by
      rintro (hv | hv) r' -
      · exact ⟨negative v, by simp [hlits], fun hf => hv (eval_negative.mp hf)⟩
      · exact ⟨positive gate, by simp [hlits], fun hf => hv (eval_positive.mp hf)⟩
    rcases hv : e.state.value v with _ | _ | _ <;> rcases hq : e.state.value gate with _ | _ | _
    · exact hopen (.inr (by simp [hq]))
    · -- the gate is false, so the requirer is
      have hvlt : v < e.state.variableMap.origins.length := by
        have hvar := h'.var
        cases p with
        | root => exact absurd (Option.some.inj hvar).symm hroot
        | solvable x =>
            exact (List.getElem?_eq_some_iff.mp ((hg'.ok.tables.vars.lookup_iff x v).mp hvar)).1
      refine ⟨by simp [hlits], hvlt, fun _ _ => rfl, fun l' hl' hne => ?_,
        ⟨positive gate, by simp [hlits], by simp [positive, negative], hgroot⟩, trivial⟩
      rw [hlits] at hl'
      rcases List.mem_cons.mp hl' with rfl | hl'
      · exact eval_positive.mpr hq
      · exact absurd (List.mem_singleton.mp hl') hne
    · exact hopen (.inr (by simp [hq]))
    · exact hopen (.inl (by simp [hv]))
    · exact hopen (.inl (by simp [hv]))
    · exact hopen (.inl (by simp [hv]))
    · -- the requirer is true, so the gate is
      refine ⟨by simp [hlits], (List.getElem?_eq_some_iff.mp horigin).1, fun x hx => ?_,
        fun l' hl' hne => ?_, ⟨negative v, by simp [hlits], by simp [positive, negative], hroot⟩,
        trivial⟩
      · have := (hg'.ok.tables.vars.lookup_iff x gate).mp hx
        rw [horigin] at this
        cases this
      · rw [hlits] at hl'
        rcases List.mem_cons.mp hl' with rfl | hl'
        · exact absurd rfl hne
        · rw [List.mem_singleton.mp hl']
          exact eval_negative.mpr hv
    · refine ⟨⟨positive gate, by simp [hlits], hgroot, eval_positive.mpr hq⟩, fun l hl => ?_⟩
      rw [hlits] at hl
      rcases List.mem_cons.mp hl with rfl | hl
      · exact eval_positive.mpr hq
      · rw [List.mem_singleton.mp hl]
        exact eval_negative.mpr hv
    · exact hopen (.inr (by simp [hq]))
  have hg'' := EncSteps.good (.single hstep) hP hg'
  have hnew := Encoder.emit_new (P := P) e (some (positive gate, negative v)) (.anyOf gate v)
    (Encoder.requirerOutcome v gate (e.state.value v) (e.state.value gate))
  have hgrow := hstep.grows hg'.ok.tables
  generalize e.emit P (some (positive gate, negative v)) (.anyOf gate v)
    (Encoder.requirerOutcome v gate (e.state.value v) (e.state.value gate)) = e' at hstep hnew hgrow ⊢
  refine ⟨(hsteps.tail hstep).tail (.requirer e' gate v _ hnew), .inr ⟨rfl, gate, _, ?_, hnew, ?_⟩⟩
  · exact hgrow.gates r gate hgate
  · show (v, _) ∈ (DecideQueue.pushTo e'.state.requiresGateRequirers gate (v, _)).getD gate []
    rw [DecideQueue.pushTo, IndexMap.getD_insert, if_pos rfl]
    exact List.mem_append_right _ List.mem_cons_self

theorem encodeRequirement_spec (hP : P.WellFormed) (hg : EncGood P problem A enc)
    {p : SolvableIdOrRoot S} {v : VariableId} {r : Requirement} {vars : List (List VariableId)}
    {condition : Option DisjunctionId} (h : Encodable P problem enc.state p v r vars condition) :
    EncSteps P problem A enc (Encoder.encodeRequirement P v r vars enc condition) ∧
    EncodesRequirement (Encoder.encodeRequirement P v r vars enc condition).state v condition r := by
  rw [Encoder.encodeRequirement_eq P]
  split
  · next hshared =>
      simp only [Bool.and_eq_true, Option.isNone_iff_eq_none, decide_eq_true_eq] at hshared
      obtain ⟨⟨⟨rfl, -⟩, hroot⟩, hlarge⟩ := hshared
      refine addSharedRequires_spec hP hg h hroot fun hnil => ?_
      rw [hnil] at hlarge
      exact absurd hlarge (by decide)
  · have hstep := emitRequires_step h hg
    have hgrow := hstep.grows hg.ok.tables
    have hw := requires_cases (N := N) v r vars.flatten
      (Encoder.conditionLiterals enc.state condition) enc.state.decisionTracker
    simp only at hstep hgrow hw ⊢
    generalize WatchedLiterals.requires (N := N) v r vars.flatten
      (Encoder.conditionLiterals enc.state condition) enc.state.decisionTracker = w
        at hstep hgrow hw ⊢
    refine ⟨.single hstep, .inl ⟨enc.state.clauses.length, Encoder.emit_new _ _ _ _, ?_⟩⟩
    rintro rfl
    refine ⟨vars, hgrow.candidates r vars h.candidates, fun hnil => ?_⟩
    -- without candidates and condition the clause is an assertion
    have hconf : w.2.1 = false := by
      rcases hw with ⟨-, -, hc⟩ | ⟨l, hl, -, -, -⟩ | ⟨l, hl, -, -, -⟩
      · exact hc
      · simp [Encoder.conditionLiterals, hnil] at hl
      · simp [Encoder.conditionLiterals, hnil] at hl
    have hall : vars.all List.isEmpty = true := by
      rw [List.all_eq_true]
      exact fun l hl => List.isEmpty_iff.mpr (List.flatten_eq_nil_iff.mp hnil l hl)
    simp [hconf, hall, Encoder.requiresOutcome, Encoder.emit, Encoder.register, Encoder.addClause,
      SolverState.addClause, SolverState.addRequiresClause]

/-! ## The handler -/

/-- Encoding a requirement does not look at the candidate table. -/
theorem encodeRequirement_setCandidates (enc : Encoder N S F) (v : VariableId) (r r' : Requirement)
    (vars vars' : List (List VariableId)) (condition : Option DisjunctionId) :
    Encoder.encodeRequirement P v r vars (enc.setCandidates r' vars') condition =
      (Encoder.encodeRequirement P v r vars enc condition).setCandidates r' vars' := by
  have hgate : (enc.setCandidates r' vars').requiresGate P r vars =
      ((enc.requiresGate P r vars).1, (enc.requiresGate P r vars).2.setCandidates r' vars') := by
    cases hg : enc.state.requiresAuxVars.get? r with
    | some gate =>
        rw [Encoder.requiresGate_some P enc r vars hg,
          Encoder.requiresGate_some P (enc.setCandidates r' vars') r vars hg]
    | none =>
        rw [Encoder.requiresGate_none P enc r vars hg,
          Encoder.requiresGate_none P (enc.setCandidates r' vars') r vars hg]
        exact Prod.ext rfl ((Encoder.independent_setCandidates r' vars').emit
          ((enc.allocVar (.requiresGate r)).setGate r enc.state.variableMap.origins.length) _ _ _)
  rw [Encoder.encodeRequirement_eq P, Encoder.encodeRequirement_eq P]
  split
  · rw [Encoder.addSharedRequires_eq P, Encoder.addSharedRequires_eq P, hgate]
    exact congrArg (fun e => Encoder.addRequirer e _ _ _)
      ((Encoder.independent_setCandidates r' vars').emit _ _ _ _)
  · exact (Encoder.independent_setCandidates r' vars').emit _ _ _ _

/-- Entering the candidates before the clauses are added is the same as entering them afterwards. -/
theorem encodeAll_setCandidates (enc : Encoder N S F) (v : VariableId) (r : Requirement)
    (vars : List (List VariableId)) (conditions : List (Option DisjunctionId)) :
    conditions.foldl (Encoder.encodeRequirement P v r vars) (enc.setCandidates r vars) =
      (conditions.foldl (Encoder.encodeRequirement P v r vars) enc).setCandidates r vars := by
  induction conditions generalizing enc with
  | nil => rfl
  | cons c conditions ih =>
      rw [List.foldl_cons, List.foldl_cons, encodeRequirement_setCandidates, ih]

/-- A requirement of a solvable is encoded, under every disjunct that was asked for. -/
def RequirementEncoded (P : DependencyProvider N S) (s : SolverState N S F) (p : SolvableIdOrRoot S)
    (r : Requirement) (condition : Option (ConditionId × List (List (DisjunctionComplement S)))) :
    Prop :=
  ∃ v, s.IsVar p v ∧ match condition with
    | none => EncodesRequirement s v none r
    | some (c, dnf) => ∀ conj : List VersionSetId, conj.map (Encoder.complementOf P) ∈ dnf →
        ∃ d, IsDisjunctId P s c conj d ∧ EncodesRequirement s v (some d) r

theorem complementOf_injective : Function.Injective (Encoder.complementOf P) := by
  intro vs vs' h
  simp only [Encoder.complementOf] at h
  split at h <;> split at h <;> simp_all

/-- The disjuncts of a task come from a list of conjunctions. -/
theorem exists_conjs {Q : List VersionSetId → Prop} (dnf : List (List (DisjunctionComplement S)))
    (h : ∀ disjunct ∈ dnf, ∃ conj, disjunct = conj.map (Encoder.complementOf P) ∧ Q conj) :
    ∃ conjs : List (List VersionSetId), dnf = conjs.map (fun conj => conj.map (Encoder.complementOf P)) ∧ ∀ conj ∈ conjs, Q conj := by
  induction dnf with
  | nil => exact ⟨[], rfl, by simp⟩
  | cons disjunct dnf ih =>
      obtain ⟨conjs, rfl, hq⟩ := ih fun d hd => h d (List.mem_cons_of_mem _ hd)
      obtain ⟨conj, rfl, hc⟩ := h disjunct List.mem_cons_self
      refine ⟨conj :: conjs, rfl, fun c hc' => ?_⟩
      rcases List.mem_cons.mp hc' with rfl | hc'
      · exact hc
      · exact hq c hc'

/-- The pairs of a zip of a list of solvables with its variables. -/
theorem AreVars.zip {s : SolverState N S F} {l : List S} {vars : List VariableId}
    (h : s.AreVars l vars) {c : S × VariableId} (hc : c ∈ l.zip vars) :
    c.1 ∈ l ∧ s.IsVar (.solvable c.1) c.2 := by
  induction h with
  | nil => cases hc
  | cons hxv _ ih =>
      rw [List.zip_cons_cons] at hc
      rcases List.mem_cons.mp hc with rfl | hc
      · exact ⟨List.mem_cons_self, hxv⟩
      · exact ⟨List.mem_cons_of_mem _ (ih hc).1, (ih hc).2⟩

theorem AreVars.mem_zip {s : SolverState N S F} {l : List S} {vars : List VariableId}
    (h : s.AreVars l vars) {v : VariableId} (hv : v ∈ vars) : ∃ x, (x, v) ∈ l.zip vars := by
  induction h with
  | nil => cases hv
  | cons hxv _ ih =>
      rw [List.zip_cons_cons]
      rcases List.mem_cons.mp hv with rfl | hv
      · exact ⟨_, List.mem_cons_self⟩
      · obtain ⟨x, hx⟩ := ih hv
        exact ⟨x, List.mem_cons_of_mem _ hx⟩

theorem AreVars.flatten {s : SolverState N S F} {ls : List (List S)} {vss : List (List VariableId)}
    (h : List.Forall₂ (AreVars s) ls vss) : s.AreVars ls.flatten vss.flatten := by
  induction h with
  | nil => exact .nil
  | cons hxs _ ih => exact List.rel_append hxs ih

/-- Interning and registering the candidates of a requirement. -/
theorem prepareCandidates_spec (hP : P.WellFormed) (hg : EncGood P problem A enc) (r : Requirement)
    (hready : A.Ordered P problem → ∀ vs ∈ r.versionSets P, enc.Processed (P.versionSetName vs)) :
    let candidates := (r.versionSets P).map P.sortedCandidates
    let e := enc.internCandidates candidates
    let e' := (candidates.flatten.zip e.1.flatten).foldl
      (fun enc c => enc.registerForbidTarget (P.solvableName c.1) c.2) e.2
    EncSteps P problem A enc e' ∧ e'.state.CandidateVars P r e.1 ∧
      ∀ v ∈ e.1.flatten, e'.Registered P v := by
  intro candidates e e'
  obtain ⟨hi, hvars⟩ := internCandidates_spec hP candidates hg
  have hg' := EncSteps.good hi hP hg
  have hflat := AreVars.flatten hvars
  have heq : e' = ((candidates.flatten.zip e.1.flatten).map fun c => (P.solvableName c.1, c.2)).foldl
      (fun enc c => enc.registerForbidTarget c.1 c.2) e.2 := by
    simp only [e', List.foldl_map]
  obtain ⟨hr, hreg⟩ := registerAll_spec hP hg'
    ((candidates.flatten.zip e.1.flatten).map fun c => (P.solvableName c.1, c.2)) (by
      intro c hc
      obtain ⟨⟨x, v⟩, hxv, rfl⟩ := List.mem_map.mp hc
      obtain ⟨hx, hv⟩ := AreVars.zip hflat hxv
      obtain ⟨l, hl, hxl⟩ := List.mem_flatten.mp hx
      obtain ⟨vs, hvs, rfl⟩ := List.mem_map.mp hl
      have hmatch := hP.mem_sortedCandidates.mp hxl
      have hname := hP.solvableName_of_matching hmatch
      refine ⟨⟨x, ?_, hv⟩, fun hh => ?_⟩
      · rw [hname]
        exact hP.matching_mem vs x hmatch
      · rw [hname]
        exact EncSteps.processed hi (hready hh vs hvs))
  rw [← heq] at hr hreg
  refine ⟨hi.trans hr, ?_, fun v hv => ?_⟩
  · exact CandidateVars.mono hvars (EncSteps.grows hr hP hg'.ok).vars
  · obtain ⟨x, hx⟩ := AreVars.mem_zip hflat hv
    exact hreg (P.solvableName x, v) (List.mem_map.mpr ⟨(x, v), hx, rfl⟩)

/-- The disjuncts a requirement is encoded under. -/
def Encoder.conditionIds (P : DependencyProvider N S) (enc : Encoder N S F) :
    Option (ConditionId × List (List (DisjunctionComplement S))) →
      List (Option DisjunctionId) × Encoder N S F
  | none => ([none], enc)
  | some (c, dnf) => Encoder.allocDisjunctions P c enc dnf

/-- The dependencies of candidates for which that is cheap are queued. -/
def Encoder.prefetch (available : S → Bool) (enc : Encoder N S F) (l : List S) : Encoder N S F :=
  l.foldl (fun enc c => if available c then enc.queueSolvable (.solvable c) else enc) enc

theorem onRequirementCandidatesAvailable_eq (enc : Encoder N S F) (available : S → Bool)
    (p : SolvableIdOrRoot S) (requirement : ConditionalRequirement)
    (condition : Option (ConditionId × List (List (DisjunctionComplement S)))) :
    enc.onRequirementCandidatesAvailable P available p requirement condition =
      let r := requirement.requirement
      let candidates := (r.versionSets P).map P.sortedCandidates
      let e₁ := enc.internSolvableOrRoot p
      let c := e₁.2.internCandidates candidates
      let e₂ := (candidates.flatten.zip c.1.flatten).foldl
        (fun enc c => enc.registerForbidTarget (P.solvableName c.1) c.2) c.2
      let e₃ := (e₂.prefetch available candidates.flatten).conditionIds P condition
      (e₃.1.foldl (Encoder.encodeRequirement P e₁.1 r c.1) e₃.2).setCandidates r c.1 := by
  cases condition <;> rfl

variable (P problem A) in
theorem prefetch_steps (enc : Encoder N S F) (available : S → Bool) (l : List S) :
    EncSteps P problem A enc (enc.prefetch available l) := by
  refine EncSteps.foldl l fun e x _ _ => ?_
  split
  · exact .single (.solvable e _)
  · exact .refl

/-- The disjuncts a requirement is encoded under are the ones asked for. -/
theorem conditionIds_spec (hP : P.WellFormed) (hg : EncGood P problem A enc) {p : SolvableIdOrRoot S}
    {requirement : ConditionalRequirement}
    {condition : Option (ConditionId × List (List (DisjunctionComplement S)))}
    (h : TaskOk P problem (A.Ordered P problem) enc (.requirementCandidates p requirement condition)) :
    let e := enc.conditionIds P condition
    EncSteps P problem A enc e.2 ∧
    (∀ d ∈ e.1, DeclaresUnder P problem e.2.state p requirement.requirement d) ∧
    (condition = none → none ∈ e.1) ∧
    ∀ c dnf, condition = some (c, dnf) → ∀ conj : List VersionSetId,
      conj.map (Encoder.complementOf P) ∈ dnf →
        ∃ d, some d ∈ e.1 ∧ IsDisjunctId P e.2.state c conj d := by
  obtain ⟨hreq, -, hnone, hsome⟩ := h
  obtain ⟨cond, r⟩ := requirement
  cases condition with
  | none =>
      refine ⟨.refl, fun d hd => ?_, fun _ => List.mem_cons_self, fun _ _ h => by cases h⟩
      obtain rfl := List.mem_singleton.mp hd
      obtain rfl : cond = none := hnone rfl
      exact hreq
  | some cd =>
      obtain ⟨c, dnf⟩ := cd
      obtain ⟨hc, hdnf⟩ := hsome c dnf rfl
      obtain rfl : cond = some c := hc
      obtain ⟨conjs, rfl, hconjs⟩ := exists_conjs (P := P) dnf
        (Q := fun conj => conj ∈ (P.resolveCondition c).toDnf ∧
          (A.Ordered P problem → ∀ vs ∈ conj, enc.Processed (P.versionSetName vs))) fun d hd => by
            obtain ⟨conj, h₁, h₂, h₃⟩ := hdnf d hd
            exact ⟨conj, h₂, h₁, h₃⟩
      obtain ⟨h₄, hf⟩ := allocDisjunctions_spec hP c conjs hg (fun conj hc => (hconjs conj hc).1)
        fun hh conj hc => (hconjs conj hc).2 hh
      refine ⟨h₄, fun d hd => ?_, (fun h => by cases h), fun c' dnf' h conj hm => ?_⟩
      · obtain ⟨conj, hconj, id, rfl, hid⟩ := List.Forall₂.exists_of_mem_right hf hd
        exact ⟨c, conj, hreq.mono (EncSteps.grows h₄ hP hg.ok), (hconjs conj hconj).1, hid⟩
      · simp only [Option.some.injEq, Prod.mk.injEq] at h
        obtain ⟨rfl, rfl⟩ := h
        obtain ⟨conj', hconj', he⟩ := List.mem_map.mp hm
        obtain rfl : conj' = conj := complementOf_injective.list_map he
        obtain ⟨d, hd, id, rfl, hid⟩ := List.Forall₂.exists_of_mem_left hf hconj'
        exact ⟨id, hd, hid⟩

/-- What is done before the clauses of a requirement are added: its candidates get variables and are
    registered, and the dependencies that are cheap to get are queued. -/
theorem prepareRequirement_spec (hP : P.WellFormed) (hg₀ : EncGood P problem A enc) (available : S → Bool)
    (p : SolvableIdOrRoot S) (r : Requirement)
    (hproc : A.Ordered P problem → ∀ vs ∈ r.versionSets P, enc.Processed (P.versionSetName vs)) :
    let candidates := (r.versionSets P).map P.sortedCandidates
    let e₁ := enc.internSolvableOrRoot p
    let c := e₁.2.internCandidates candidates
    let e₂ := (candidates.flatten.zip c.1.flatten).foldl
      (fun enc c => enc.registerForbidTarget (P.solvableName c.1) c.2) c.2
    let e₃ := e₂.prefetch available candidates.flatten
    EncSteps P problem A enc e₃ ∧ e₃.state.IsVar p e₁.1 ∧ e₃.state.CandidateVars P r c.1 ∧
      ∀ v ∈ c.1.flatten, e₃.Registered P v := by
  dsimp only
  -- the variable of the solvable
  have h₁ := internSolvableOrRoot_steps P problem A enc p
  have hv := internSolvableOrRoot_isVar hg₀ p
  have hg₁ := EncSteps.good h₁ hP hg₀
  generalize enc.internSolvableOrRoot p = e₁ at h₁ hv hg₁ ⊢
  obtain ⟨v, e₁⟩ := e₁
  dsimp only at h₁ hv hg₁ ⊢
  -- its candidates
  obtain ⟨h₂, hcand, hreg⟩ := prepareCandidates_spec hP hg₁ r fun hh vs hvs =>
    EncSteps.processed h₁ (hproc hh vs hvs)
  have hg₂ := EncSteps.good h₂ hP hg₁
  generalize (r.versionSets P).map P.sortedCandidates = candidates at h₂ hcand hreg hg₂ ⊢
  generalize e₁.internCandidates candidates = ce at h₂ hcand hreg hg₂ ⊢
  obtain ⟨vars, ce⟩ := ce
  dsimp only at h₂ hcand hreg hg₂ ⊢
  generalize List.foldl (fun enc c => Encoder.registerForbidTarget enc (P.solvableName c.1) c.2)
    ce (List.zip candidates.flatten vars.flatten) = e₂ at h₂ hcand hreg hg₂ ⊢
  -- prefetching
  have h₃ := prefetch_steps P problem A e₂ available candidates.flatten
  have hgrow₃ := EncSteps.grows h₃ hP hg₂.ok
  exact ⟨(h₁.trans h₂).trans h₃, (hv.mono (EncSteps.grows h₂ hP hg₁.ok).vars).mono hgrow₃.vars,
    hcand.mono hgrow₃.vars, fun v hv => EncSteps.registered h₃ hP hg₂ (hreg v hv)⟩

/-- Entering the candidates of a requirement, and its clauses. -/
theorem encodeAll_spec (hP : P.WellFormed) (hg : EncGood P problem A enc) {p : SolvableIdOrRoot S}
    {v : VariableId} {r : Requirement} {vars : List (List VariableId)} {conditions : List (Option DisjunctionId)}
    (hv : enc.state.IsVar p v) (hcand : enc.state.CandidateVars P r vars)
    (hreg : ∀ v ∈ vars.flatten, enc.Registered P v)
    (hdecl : ∀ d ∈ conditions, DeclaresUnder P problem enc.state p r d) :
    let e := (conditions.foldl (Encoder.encodeRequirement P v r vars) enc).setCandidates r vars
    EncSteps P problem A enc e ∧ ∀ d ∈ conditions, EncodesRequirement e.state v d r := by
  have h₅ : EncSteps P problem A enc (enc.setCandidates r vars) := .single (.candidates enc r vars hcand hreg)
  have hg₅ := EncSteps.good h₅ hP hg
  have hgrow₅ := EncSteps.grows h₅ hP hg.ok
  have henc : ∀ d ∈ conditions, Encodable P problem (enc.setCandidates r vars).state p v r vars d := fun d hd =>
    ⟨hv.mono hgrow₅.vars, IndexMap.get?_insert_self _ _ _, (hdecl d hd).mono hgrow₅⟩
  obtain ⟨h₆, hall⟩ := EncSteps.foldl_post (fun d s => EncodesRequirement s v d r)
    (fun _ _ _ hgrow h => EncodesRequirement.mono h hgrow) hP hg₅ conditions
    (f := Encoder.encodeRequirement P v r vars) fun e d hd he =>
      encodeRequirement_spec hP (EncSteps.good he hP hg₅)
        ((henc d hd).mono (EncSteps.grows he hP hg₅.ok))
  rw [encodeAll_setCandidates] at h₆ hall
  exact ⟨h₅.trans h₆, hall⟩

/-- **The requirement of a solvable is encoded**, once the packages of its candidates were processed. -/
theorem onRequirementCandidatesAvailable_spec (hP : P.WellFormed) (hg₀ : EncGood P problem A enc)
    (available : S → Bool) {p : SolvableIdOrRoot S} {requirement : ConditionalRequirement}
    {condition : Option (ConditionId × List (List (DisjunctionComplement S)))}
    (htask : TaskOk P problem (A.Ordered P problem) enc (.requirementCandidates p requirement condition))
    (hproc : A.Ordered P problem → ∀ vs ∈ requirement.requirement.versionSets P,
      enc.Processed (P.versionSetName vs)) :
    EncSteps P problem A enc
        (enc.onRequirementCandidatesAvailable P available p requirement condition) ∧
      RequirementEncoded P
        (enc.onRequirementCandidatesAvailable P available p requirement condition).state p
        requirement.requirement condition := by
  rw [onRequirementCandidatesAvailable_eq]
  obtain ⟨h₀₃, hv, hcand, hreg⟩ := prepareRequirement_spec hP hg₀ available p requirement.requirement hproc
  dsimp only at h₀₃ hv hcand hreg ⊢
  generalize (requirement.requirement.versionSets P).map P.sortedCandidates = candidates at h₀₃ hv hcand hreg ⊢
  generalize (enc.internSolvableOrRoot p).1 = v at hv ⊢
  generalize (enc.internSolvableOrRoot p).2.internCandidates candidates = ce at h₀₃ hv hcand hreg ⊢
  generalize (Encoder.prefetch available _ candidates.flatten : Encoder N S F) = e₃ at h₀₃ hv hcand hreg ⊢
  have hg₃ := EncSteps.good h₀₃ hP hg₀
  -- the conditions
  obtain ⟨h₄, hdecl, hcnone, hcsome⟩ := conditionIds_spec hP hg₃
    (htask.mono (EncSteps.grows h₀₃ hP hg₀.ok) fun _ hp => EncSteps.processed h₀₃ hp)
  generalize e₃.conditionIds P condition = e₄ at h₄ hdecl hcnone hcsome ⊢
  obtain ⟨conditions, e₄⟩ := e₄
  dsimp only at h₄ hdecl hcnone hcsome ⊢
  have hg₄ := EncSteps.good h₄ hP hg₃
  have hgrow₄ := EncSteps.grows h₄ hP hg₃.ok
  -- entering the candidates, and the clauses
  obtain ⟨h₅, hall⟩ := encodeAll_spec hP hg₄ (hv.mono hgrow₄.vars) (hcand.mono hgrow₄.vars)
    (fun v hv => EncSteps.registered h₄ hP hg₃ (hreg v hv)) hdecl
  have hgrow₅ := EncSteps.grows h₅ hP hg₄.ok
  refine ⟨(h₀₃.trans h₄).trans h₅, v, (hv.mono hgrow₄.vars).mono hgrow₅.vars, ?_⟩
  cases condition with
  | none => exact hall none (hcnone rfl)
  | some cd =>
      obtain ⟨c, dnf⟩ := cd
      intro conj hm
      obtain ⟨d, hd, hid⟩ := hcsome c dnf rfl conj hm
      exact ⟨d, hid.mono hgrow₅, hall (some d) hd⟩

end Requirement

end Resolvo
