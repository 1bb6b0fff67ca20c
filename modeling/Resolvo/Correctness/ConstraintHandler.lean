import Resolvo.Correctness.Handlers

/-!
# `Correctness.ConstraintHandler` — encoding constraints

A constraint with few non-matching candidates becomes one clause per candidate. With many it becomes an
implication to a violation variable, which is linked to the candidates when it is allocated.
-/

set_option linter.unusedSectionVars false

namespace Resolvo

open Sat Relation SolverState

variable {N S F : Type} [DecidableEq N] [DecidableEq S]

section Constraint

variable {P : DependencyProvider N S} {problem : Problem S} {A : RunFacts} {enc enc' : Encoder N S F}

/-! ## What a state knows about positive decisions -/

theorem SolverState.isPositivelyDecided_iff {s : SolverState N S F} {x : S} :
    s.isPositivelyDecided x = true ↔ ∃ v, s.IsVar (.solvable x) v ∧ s.value v = some true := by
  simp only [SolverState.isPositivelyDecided, SolverState.IsVar, VariableMap.varOf]
  cases s.variableMap.lookupSolvable x with
  | none => simp
  | some v => simp

/-- What the encoder assigned stays assigned. -/
theorem EncSteps.value_mono (h : EncSteps P problem A enc enc') (hP : P.WellFormed)
    (hg : EncGood P problem A enc) {v : VariableId} {b : Bool} (hv : enc.state.value v = some b) :
    enc'.state.value v = some b := by
  have hg' := EncSteps.good h hP hg
  obtain ⟨e, he, hl⟩ := hg.trail.core.tracker.assignedValue_iff.mp hv
  refine hg'.trail.core.tracker.assignedValue_iff.mpr ⟨e, ?_, hl⟩
  exact (EncSteps.trail_prefix h hP hg.ok hg.trail).1.subset he

/-- A forced literal that was not false is true afterwards. -/
theorem Encoder.emit_forced_value (enc : Encoder N S F) (w : Option Watches) (kind : Clause N)
    (l : Literal) (hl : enc.state.decisionTracker.eval l ≠ some false) :
    (enc.emit P w kind (.forced l)).state.value l.var = some l.satisfyingValue := by
  obtain ⟨q, hq⟩ := enc.emitBase_eq (P := P) w kind
  have htracker : (enc.emitBase P w kind).state.decisionTracker = enc.state.decisionTracker := by
    rw [hq]
    rfl
  show ((enc.emitBase P w kind).decide ⟨l.var, l.satisfyingValue, enc.state.clauses.length⟩
    ).state.value l.var = _
  rcases (enc.emitBase P w kind).decide_cases
    ⟨l.var, l.satisfyingValue, enc.state.clauses.length⟩ with ⟨-, h⟩ | ⟨hv, h⟩ | ⟨hv, h⟩
  · rw [h]
    show (DecisionTracker.push _ _ _).assignedValue l.var = _
    rw [DecisionTracker.push_assignedValue, if_pos rfl]
  · rw [h]
    exact hv
  · -- the literal would be false
    rw [htracker] at hv
    refine absurd ?_ hl
    simp only [DecisionTracker.eval, Lit.eval]
    rw [show enc.state.decisionTracker.map.value l.var = some (!l.satisfyingValue) from hv]
    simp [Lit.satisfyingValue]

/-! ## One clause per candidate -/

/-- A clause keeps the solvable and one non-matching candidate apart. -/
def KeepsApart (s : SolverState N S F) (v : VariableId) (vs : VersionSetId) (x : S) : Prop :=
  ∃ f, ∃ id : ClauseId, s.IsVar (.solvable x) f ∧ s.clauses[id]? = some (.constrains v f vs)

theorem KeepsApart.mono {s s' : SolverState N S F} {v : VariableId} {vs : VersionSetId} {x : S}
    (h : KeepsApart s v vs x) (hg : s.Grows s') : KeepsApart s' v vs x := by
  obtain ⟨f, id, hf, hc⟩ := h
  exact ⟨f, id, hf.mono hg.vars, getElem?_of_isPrefix hg.clauses hc⟩

/-- A clause that keeps two variables apart has a literal that is not false, unless it is reported. -/
theorem pair_open {s : SolverState N S F} {v f : VariableId}
    (h : ¬ (s.value v ≠ some false ∧ s.value f = some true)) :
    s.decisionTracker.eval (negative v) ≠ some false ∨
      s.decisionTracker.eval (negative f) ≠ some false := by
  by_cases hv : s.value v = some false
  · refine .inl fun hf => ?_
    have htrue : s.value v = some true := eval_negative.mp hf
    rw [hv] at htrue
    cases htrue
  · exact .inr fun hf => h ⟨hv, eval_negative.mp hf⟩

theorem addConstrains_spec (hP : P.WellFormed) (hg : EncGood P problem A enc)
    {p : SolvableIdOrRoot S} {v : VariableId} {vs : VersionSetId} {x : S}
    (hv : enc.state.IsVar p v) (hvs : Restricts P problem enc.state p vs)
    (hx : x ∈ P.nonMatchingCandidates vs) :
    EncSteps P problem A enc (Encoder.addConstrains v vs enc x) ∧
      KeepsApart (Encoder.addConstrains v vs enc x).state v vs x := by
  have hi := internSolvable_steps P problem A enc x
  have hg' := EncSteps.good hi hP hg
  have hf := internSolvable_isVar hg x
  have hv' := hv.mono (EncSteps.grows hi hP hg.ok).vars
  have hvs' := hvs.mono (EncSteps.grows hi hP hg.ok)
  rw [Encoder.addConstrains_eq P]
  generalize enc.internSolvable x = e at hi hg' hf hv' hvs' ⊢
  obtain ⟨f, e⟩ := e
  dsimp only at hi hg' hf hv' hvs' ⊢
  have hlits : e.state.kindLiterals (.constrains v f vs) = [negative v, negative f] := rfl
  have hfroot := hg'.ok.tables.vars.lookup_ne_root hf
  have hstep : ∀ o, OutcomeOk P A e.state (.constrains v f vs) o →
      Noticed A e.state (some (negative v, negative f)) (.constrains v f vs) o →
      EncStep P problem A e (e.emit P (some (negative v, negative f)) (.constrains v f vs) o) :=
    fun o ho hn => .emit e _ _ _ ⟨p, x, hv', hf, hvs', hx⟩ trivial
      (fun w hw => Option.some.inj hw ▸ watchOk_pair _ _ _) (fun _ => rfl) ho hn
  suffices hout : OutcomeOk P A e.state (.constrains v f vs)
      (if e.state.value v ≠ some false ∧ e.state.value f = some true then .flagged else .idle) ∧
      Noticed A e.state (some (negative v, negative f)) (.constrains v f vs)
        (if e.state.value v ≠ some false ∧ e.state.value f = some true then .flagged else .idle) by
    have h := hstep _ hout.1 hout.2
    refine ⟨hi.trans (.single h), f, e.state.clauses.length, ?_, Encoder.emit_new e _ _ _⟩
    exact hf.mono (h.grows hg'.ok.tables).vars
  by_cases hc : e.state.value v ≠ some false ∧ e.state.value f = some true
  · rw [if_pos hc]
    refine ⟨⟨⟨negative f, by simp [hlits], hfroot, eval_negative.mpr hc.2⟩, trivial⟩, ?_⟩
    exact .binary rfl (fun _ _ h => absurd rfl h) fun l hl => by cases hl
  · rw [if_neg hc]
    have hopen := pair_open hc
    refine ⟨?_, .binary rfl (fun _ _ _ => hopen) fun l hl => by cases hl⟩
    show Open _ _
    rw [hlits]
    exact hopen.elim (fun h => ⟨_, List.mem_cons_self, h⟩) fun h => ⟨negative f, by simp, h⟩

/-! ## The violation variable -/

/-- A non-matching candidate that is true makes the violation variable true. -/
def LinksTo (s : SolverState N S F) (aux : VariableId) (vs : VersionSetId) (x : S) : Prop :=
  ∃ f, ∃ id : ClauseId, s.IsVar (.solvable x) f ∧
    s.clauses[id]? = some (.constrainsExcluded f aux vs) ∧
    (s.value f = some true → s.value aux ≠ none)

/-- A violation variable that has not been entered in the table has no requirer yet. -/
theorem EncOk.no_constrainsParent {ordered : Prop} (hok : EncOk P problem ordered enc) {vs : VersionSetId}
    {aux : VariableId} (h : enc.state.constrainsAuxVars.get? vs = none)
    (ho : enc.state.variableMap.origins[aux]? = some (.constrainsViolation vs)) (id : ClauseId)
    (parent : VariableId) (vs' : VersionSetId) :
    enc.state.clauses[id]? ≠ some (.constrainsParent parent aux vs') := by
  intro hc
  obtain ⟨-, -, haux, -⟩ := hok.origins id _ hc (by simp) (by simp)
  have ho' := hok.tables.auxs vs' aux haux
  rw [ho] at ho'
  obtain rfl : vs = vs' := by simpa using ho'
  rw [h] at haux
  cases haux

theorem addConstrainsExcluded_spec (hP : P.WellFormed) (hg : EncGood P problem A enc)
    {aux : VariableId} {vs : VersionSetId} {x : S} (hx : x ∈ P.nonMatchingCandidates vs)
    (hnone : enc.state.constrainsAuxVars.get? vs = none)
    (ho : enc.state.variableMap.origins[aux]? = some (.constrainsViolation vs))
    (hnf : enc.state.value aux ≠ some false) :
    EncSteps P problem A enc (Encoder.addConstrainsExcluded aux vs enc x) ∧
      (Encoder.addConstrainsExcluded aux vs enc x).state.constrainsAuxVars =
        enc.state.constrainsAuxVars ∧
      (Encoder.addConstrainsExcluded aux vs enc x).state.value aux ≠ some false ∧
      LinksTo (Encoder.addConstrainsExcluded aux vs enc x).state aux vs x := by
  have hi := internSolvable_steps P problem A enc x
  have hg' := EncSteps.good hi hP hg
  have hf := internSolvable_isVar hg x
  have ho' := (EncSteps.grows hi hP hg.ok).vars.origin ho
  have htab : (enc.internSolvable x).2.state.constrainsAuxVars = enc.state.constrainsAuxVars := rfl
  have hnf' : (enc.internSolvable x).2.state.value aux ≠ some false := hnf
  rw [Encoder.addConstrainsExcluded_eq P]
  generalize enc.internSolvable x = e at hi hg' hf ho' htab hnf' ⊢
  obtain ⟨f, e⟩ := e
  dsimp only at hi hg' hf ho' htab hnf' ⊢
  have hlits : e.state.kindLiterals (.constrainsExcluded f aux vs) = [negative f, positive aux] := rfl
  have hparent := hg'.ok.no_constrainsParent (htab ▸ hnone) ho'
  have hne : negative f ≠ positive aux := by simp [negative, positive]
  have hlive : e.state.decisionTracker.eval (positive aux) ≠ some false :=
    fun h => hnf' (eval_positive.mp h)
  have hauxlt : aux < e.state.variableMap.origins.length := (List.getElem?_eq_some_iff.mp ho').1
  have hstep : ∀ o, OutcomeOk P A e.state (.constrainsExcluded f aux vs) o →
      Noticed A e.state (some (negative f, positive aux)) (.constrainsExcluded f aux vs) o →
      EncStep P problem A e
        (e.emit P (some (negative f, positive aux)) (.constrainsExcluded f aux vs) o) :=
    fun o hout hn => .emit e _ _ _ ⟨x, hf, ho', hx⟩ trivial
      (fun w hw => Option.some.inj hw ▸ watchOk_pair _ _ _) (fun _ => rfl) hout hn
  have haux : ∀ o, (e.emit P (some (negative f, positive aux)) (.constrainsExcluded f aux vs) o
      ).state.constrainsAuxVars = enc.state.constrainsAuxVars := by
    intro o
    obtain ⟨q, t, a, flags, panicked, h⟩ := e.emit_eq (P := P)
      (some (negative f, positive aux)) (.constrainsExcluded f aux vs) o
    rw [h]
    exact htab
  by_cases hft : e.state.value f = some true
  · rw [if_pos hft]
    have h := hstep (.forced (positive aux)) ⟨by simp [hlits], hauxlt, ?_, ?_, ?_, hparent⟩
      (.binary rfl (fun _ _ _ => .inr hlive) fun l hl => ?_)
    · have hval : (e.emit P (some (negative f, positive aux)) (.constrainsExcluded f aux vs)
          (.forced (positive aux))).state.value aux = some true :=
        Encoder.emit_forced_value (P := P) e _ _ (positive aux) hlive
      refine ⟨hi.trans (.single h), haux _, ?_, f, e.state.clauses.length, ?_,
        Encoder.emit_new e _ _ _, fun _ => ?_⟩
      · rw [hval]
        exact (nomatch ·)
      · exact hf.mono (h.grows hg'.ok.tables).vars
      · rw [hval]
        exact (nomatch ·)
    · intro y hy
      have := (hg'.ok.tables.vars.lookup_iff y aux).mp hy
      rw [ho'] at this
      cases this
    · intro l' hl' hne'
      rw [hlits] at hl'
      obtain rfl : l' = negative f := by
        rcases List.mem_pair.mp hl' with h | h
        · exact h
        · exact absurd h hne'
      exact eval_negative.mpr hft
    · exact ⟨negative f, by simp [hlits], hne, hg'.ok.tables.vars.lookup_ne_root hf⟩
    · obtain rfl : positive aux = l := by simpa using hl
      exact ⟨hlive, fun _ _ _ => rfl⟩
  · rw [if_neg hft]
    have hopen : Open e.state.decisionTracker (e.state.kindLiterals (.constrainsExcluded f aux vs)) := by
      rw [hlits]
      exact ⟨negative f, by simp, fun h => hft (eval_negative.mp h)⟩
    have h := hstep .idle ⟨hopen, hparent⟩
      (.binary rfl (fun _ _ _ => .inr hlive) fun l hl => by cases hl)
    refine ⟨hi.trans (.single h), haux _, hnf', f, e.state.clauses.length, ?_, Encoder.emit_new e _ _ _,
      fun hv => absurd ?_ hft⟩
    · exact hf.mono (h.grows hg'.ok.tables).vars
    · exact (h.positive_of hg'.ok.tables hg'.trail (hf.mono (h.grows hg'.ok.tables).vars) hv).2

/-- Linking a candidate does not look at the table of violation variables. -/
theorem addConstrainsExcluded_setAux (P : DependencyProvider N S) (enc : Encoder N S F)
    (aux aux' : VariableId) (vs vs' : VersionSetId) (x : S) :
    Encoder.addConstrainsExcluded aux vs (enc.setAux vs' aux') x =
      (Encoder.addConstrainsExcluded aux vs enc x).setAux vs' aux' := by
  rw [Encoder.addConstrainsExcluded_eq P, Encoder.addConstrainsExcluded_eq P]
  exact (Encoder.independent_setAux (P := P) vs' aux').emit (enc.internSolvable x).2 _ _ _

theorem constrainsAux_none (P : DependencyProvider N S) (enc : Encoder N S F) (vs : VersionSetId) (candidates : List S)
    (h : enc.state.constrainsAuxVars.get? vs = none) :
    enc.constrainsAux vs candidates =
      (enc.state.variableMap.origins.length,
        (candidates.foldl (Encoder.addConstrainsExcluded enc.state.variableMap.origins.length vs)
          (enc.allocVar (.constrainsViolation vs))).setAux vs enc.state.variableMap.origins.length) := by
  simp only [Encoder.constrainsAux, h]
  refine Prod.ext rfl ?_
  show candidates.foldl (Encoder.addConstrainsExcluded enc.state.variableMap.origins.length vs)
    ((enc.allocVar (.constrainsViolation vs)).setAux vs enc.state.variableMap.origins.length) = _
  generalize enc.allocVar (.constrainsViolation vs) = e
  induction candidates generalizing e with
  | nil => rfl
  | cons x rest ih =>
      rw [List.foldl_cons, List.foldl_cons, addConstrainsExcluded_setAux P]
      exact ih _

/-- Linking all candidates to a violation variable that is not in the table yet. -/
theorem linkAll_spec (hP : P.WellFormed) {aux : VariableId} {vs : VersionSetId} (l : List S)
    (hl : ∀ x ∈ l, x ∈ P.nonMatchingCandidates vs) (hg : EncGood P problem A enc)
    (hnone : enc.state.constrainsAuxVars.get? vs = none)
    (ho : enc.state.variableMap.origins[aux]? = some (.constrainsViolation vs))
    (hnf : enc.state.value aux ≠ some false) :
    EncSteps P problem A enc (l.foldl (Encoder.addConstrainsExcluded aux vs) enc) ∧
      (l.foldl (Encoder.addConstrainsExcluded aux vs) enc).state.constrainsAuxVars =
        enc.state.constrainsAuxVars ∧
      ∀ x ∈ l, LinksTo (l.foldl (Encoder.addConstrainsExcluded aux vs) enc).state aux vs x := by
  induction l generalizing enc with
  | nil => exact ⟨.refl, rfl, by simp⟩
  | cons x l ih =>
      obtain ⟨hstep, htab, hnf', hx⟩ :=
        addConstrainsExcluded_spec hP hg (hl x List.mem_cons_self) hnone ho hnf
      have hg' := EncSteps.good hstep hP hg
      have hgrow := EncSteps.grows hstep hP hg.ok
      obtain ⟨hrest, htab', hall⟩ := ih (fun y hy => hl y (List.mem_cons_of_mem _ hy)) hg'
        (htab ▸ hnone) (hgrow.vars.origin ho) hnf'
      have hgrow' := EncSteps.grows hrest hP hg'.ok
      refine ⟨hstep.trans hrest, htab'.trans htab, fun y hy => ?_⟩
      rcases List.mem_cons.mp hy with rfl | hy
      · obtain ⟨f, id, hf, hc, hv⟩ := hx
        refine ⟨f, id, hf.mono hgrow'.vars, getElem?_of_isPrefix hgrow'.clauses hc, fun htrue => ?_⟩
        have hbefore := (EncSteps.positive_of hrest hP hg' (hf.mono hgrow'.vars) htrue).2
        obtain ⟨b, hb⟩ := Option.ne_none_iff_exists'.mp (hv hbefore)
        rw [List.foldl_cons, EncSteps.value_mono hrest hP hg' hb]
        exact (nomatch ·)
      · exact hall y hy

/-- A constraint can be encoded without stranding its violation variable: if the variable exists and is
    unassigned while the solvable is true, then no non-matching candidate is true. -/
def Unstranded (P : DependencyProvider N S) (s : SolverState N S F) (p : SolvableIdOrRoot S)
    (vs : VersionSetId) : Prop :=
  constrainsAuxEncodingThreshold ≤ (P.nonMatchingCandidates vs).length →
    ∀ aux v, s.constrainsAuxVars.get? vs = some aux → s.value aux = none → s.IsVar p v →
      s.value v = some true → ∀ x ∈ P.nonMatchingCandidates vs, s.isPositivelyDecided x = false

theorem constrainsAux_spec (hP : P.WellFormed) (hg : EncGood P problem A enc) (vs : VersionSetId) :
    EncSteps P problem A enc (enc.constrainsAux vs (P.nonMatchingCandidates vs)).2 ∧
    (enc.constrainsAux vs (P.nonMatchingCandidates vs)).2.state.constrainsAuxVars.get? vs =
      some (enc.constrainsAux vs (P.nonMatchingCandidates vs)).1 ∧
    (enc.state.constrainsAuxVars.get? vs = none →
      ∀ x ∈ P.nonMatchingCandidates vs,
        LinksTo (enc.constrainsAux vs (P.nonMatchingCandidates vs)).2.state
          (enc.constrainsAux vs (P.nonMatchingCandidates vs)).1 vs x) ∧
    (∀ aux, enc.state.constrainsAuxVars.get? vs = some aux →
      enc.constrainsAux vs (P.nonMatchingCandidates vs) = (aux, enc)) := by
  cases haux : enc.state.constrainsAuxVars.get? vs with
  | some aux =>
      have heq : enc.constrainsAux vs (P.nonMatchingCandidates vs) = (aux, enc) := by
        simp only [Encoder.constrainsAux, haux]
      rw [heq]
      exact ⟨.refl, haux, (fun h => by cases h), fun aux' h => by rw [Option.some.inj h]⟩
  | none =>
      rw [constrainsAux_none P enc vs _ haux]
      have halloc : EncSteps P problem A enc (enc.allocVar (.constrainsViolation vs)) :=
        .single (.alloc enc _ trivial fun _ h => by cases h)
      have hg₁ := EncSteps.good halloc hP hg
      have ho : (enc.allocVar (.constrainsViolation vs)).state.variableMap.origins[
          enc.state.variableMap.origins.length]? = some (.constrainsViolation vs) :=
        VariableMap.alloc_origin _ _
      have hnone₁ : (enc.allocVar (.constrainsViolation vs)).state.constrainsAuxVars.get? vs = none :=
        haux
      -- a variable that was just allocated is unassigned
      have hnf : (enc.allocVar (.constrainsViolation vs)).state.value
          enc.state.variableMap.origins.length ≠ some false :=
        fun hf => absurd (hg.trail.lt_of_assigned hf) (lt_irrefl _)
      generalize enc.allocVar (.constrainsViolation vs) = e₁ at halloc hg₁ ho hnone₁ hnf ⊢
      generalize enc.state.variableMap.origins.length = aux at ho hnf ⊢
      obtain ⟨hlink, htab, hall⟩ := linkAll_spec hP (P.nonMatchingCandidates vs) (fun _ h => h) hg₁
        hnone₁ ho hnf
      have hg₂ := EncSteps.good hlink hP hg₁
      have hgrow := EncSteps.grows hlink hP hg₁.ok
      have hset : EncSteps P problem A _ (Encoder.setAux ((P.nonMatchingCandidates vs).foldl
          (Encoder.addConstrainsExcluded aux vs) e₁) vs aux) :=
        .single (.aux _ vs aux (htab ▸ hnone₁) (hgrow.vars.origin ho) fun x hx => by
          obtain ⟨f, id, hf, hc, -⟩ := hall x hx
          exact ⟨f, id, hf, hc⟩)
      exact ⟨(halloc.trans hlink).trans hset, IndexMap.get?_insert_self _ _ _,
        fun _ x hx => hall x hx, fun _ h => by cases h⟩

/-! ## The handler -/

/-- A constraint of a solvable is encoded, candidate by candidate unless there are many. -/
def ConstraintEncoded (P : DependencyProvider N S) (s : SolverState N S F) (p : SolvableIdOrRoot S)
    (vs : VersionSetId) : Prop :=
  ∃ v, s.IsVar p v ∧ ((∀ x ∈ P.nonMatchingCandidates vs, KeepsApart s v vs x) ∨
    constrainsAuxEncodingThreshold ≤ (P.nonMatchingCandidates vs).length ∧
      ∃ aux, ∃ id : ClauseId, s.constrainsAuxVars.get? vs = some aux ∧
        s.clauses[id]? = some (.constrainsParent v aux vs))

theorem ConstraintEncoded.mono {s s' : SolverState N S F} {p : SolvableIdOrRoot S} {vs : VersionSetId}
    (h : ConstraintEncoded P s p vs) (hg : s.Grows s') : ConstraintEncoded P s' p vs := by
  obtain ⟨v, hv, h⟩ := h
  refine ⟨v, hv.mono hg.vars, h.imp (fun h x hx => (h x hx).mono hg) ?_⟩
  rintro ⟨hlarge, aux, id, haux, hc⟩
  exact ⟨hlarge, aux, id, hg.auxs vs aux haux, getElem?_of_isPrefix hg.clauses hc⟩

/-- **The constraint of a solvable is encoded.** -/
theorem onConstraintCandidatesAvailable_spec (hP : P.WellFormed) (hg₀ : EncGood P problem A enc)
    {p : SolvableIdOrRoot S} {vs : VersionSetId} (hvs : Restricts P problem enc.state p vs)
    (hun₀ : A.unstranded → Unstranded P enc.state p vs) :
    EncSteps P problem A enc (enc.onConstraintCandidatesAvailable P p vs) ∧
      ConstraintEncoded P (enc.onConstraintCandidatesAvailable P p vs).state p vs := by
  rw [Encoder.onConstraint_eq P]
  have h₁ := internSolvableOrRoot_steps P problem A enc p
  have hv := internSolvableOrRoot_isVar hg₀ p
  have hg₁ := EncSteps.good h₁ hP hg₀
  have hvs₁ := hvs.mono (EncSteps.grows h₁ hP hg₀.ok)
  have htab₁ : (enc.internSolvableOrRoot p).2.state.constrainsAuxVars =
      enc.state.constrainsAuxVars := rfl
  have htrk₁ : ∀ v, (enc.internSolvableOrRoot p).2.state.value v = enc.state.value v := fun _ => rfl
  dsimp only
  generalize enc.internSolvableOrRoot p = e₁ at h₁ hv hg₁ hvs₁ htab₁ htrk₁ ⊢
  obtain ⟨v, e₁⟩ := e₁
  dsimp only at h₁ hv hg₁ hvs₁ htab₁ htrk₁ ⊢
  by_cases hsmall : (P.nonMatchingCandidates vs).length < constrainsAuxEncodingThreshold
  · -- one clause per candidate
    rw [if_pos hsmall]
    have hfold : EncSteps P problem A e₁
        ((P.nonMatchingCandidates vs).foldl (Encoder.addConstrains v vs) e₁) ∧
        ∀ x ∈ P.nonMatchingCandidates vs,
          KeepsApart ((P.nonMatchingCandidates vs).foldl (Encoder.addConstrains v vs) e₁).state v vs x :=
      EncSteps.foldl_post (fun x s => KeepsApart s v vs x)
        (fun _ _ _ hgrow h => KeepsApart.mono h hgrow) hP hg₁ _ fun e x hx he =>
          addConstrains_spec hP (EncSteps.good he hP hg₁)
            (hv.mono (EncSteps.grows he hP hg₁.ok).vars)
            (hvs₁.mono (EncSteps.grows he hP hg₁.ok)) hx
    exact ⟨h₁.trans hfold.1, v, hv.mono (EncSteps.grows hfold.1 hP hg₁.ok).vars, .inl hfold.2⟩
  · rw [if_neg hsmall]
    obtain ⟨h₂, haux, hnew, hold⟩ := constrainsAux_spec hP hg₁ vs
    have hg₂ := EncSteps.good h₂ hP hg₁
    have hv₂ := hv.mono (EncSteps.grows h₂ hP hg₁.ok).vars
    have hvs₂ := hvs₁.mono (EncSteps.grows h₂ hP hg₁.ok)
    -- a violation variable that stays unassigned has no true candidate
    have hunst : A.unstranded →
        (e₁.constrainsAux vs (P.nonMatchingCandidates vs)).2.state.value v = some true →
        (e₁.constrainsAux vs (P.nonMatchingCandidates vs)).2.state.value
          (e₁.constrainsAux vs (P.nonMatchingCandidates vs)).1 = none →
        ∀ x ∈ P.nonMatchingCandidates vs,
          (e₁.constrainsAux vs (P.nonMatchingCandidates vs)).2.state.isPositivelyDecided x = false := by
      intro hA hvt hauxn x hx
      refine Bool.eq_false_iff.mpr fun hpos => ?_
      obtain ⟨f, hf, hft⟩ := SolverState.isPositivelyDecided_iff.mp hpos
      cases htab : e₁.state.constrainsAuxVars.get? vs with
      | none =>
          obtain ⟨f', id, hf', hc, hlink⟩ := hnew htab x hx
          obtain rfl : f = f' := Option.some.inj (hf.symm.trans hf')
          exact hlink hft hauxn
      | some aux =>
          rw [hold aux htab] at hauxn hvt hf hft
          obtain ⟨hf₀, hft₀⟩ := EncSteps.positive_of h₁ hP hg₀ hf hft
          have hv₀ : enc.state.IsVar p v := by
            cases p with
            | root => exact hv
            | solvable y => exact (EncSteps.positive_of h₁ hP hg₀ hv hvt).1
          have := hun₀ hA (Nat.le_of_not_lt hsmall) aux v (htab₁ ▸ htab) (htrk₁ aux ▸ hauxn) hv₀
            (htrk₁ v ▸ hvt) x hx
          rw [SolverState.isPositivelyDecided_iff.mpr ⟨f, hf₀, hft₀⟩] at this
          cases this
    generalize e₁.constrainsAux vs (P.nonMatchingCandidates vs) = e₂ at h₂ haux hg₂ hv₂ hvs₂ hunst ⊢
    obtain ⟨aux, e₂⟩ := e₂
    dsimp only at h₂ haux hg₂ hv₂ hvs₂ hunst ⊢
    have hlits : e₂.state.kindLiterals (.constrainsParent v aux vs) =
      [negative v, negative aux] := rfl
    have hauxroot : aux ≠ VariableId.root := by
      rintro rfl
      have h₁ := hg₂.ok.tables.auxs vs _ haux
      rw [(hg₂.ok.tables.vars.root _).mpr rfl] at h₁
      cases h₁
    have hstep : ∀ o, OutcomeOk P A e₂.state (.constrainsParent v aux vs) o →
        Noticed A e₂.state (some (negative v, negative aux)) (.constrainsParent v aux vs) o →
        EncStep P problem A e₂
          (e₂.emit P (some (negative v, negative aux)) (.constrainsParent v aux vs) o) :=
      fun o ho hn => .emit e₂ _ _ _ ⟨p, hv₂, haux, hvs₂⟩ trivial
        (fun w hw => Option.some.inj hw ▸ watchOk_pair _ _ _) (fun _ => rfl) ho hn
    suffices hout : OutcomeOk P A e₂.state (.constrainsParent v aux vs)
        (if e₂.state.value v ≠ some false ∧ e₂.state.value aux = some true then .flagged
          else .idle) ∧
        Noticed A e₂.state (some (negative v, negative aux)) (.constrainsParent v aux vs)
          (if e₂.state.value v ≠ some false ∧ e₂.state.value aux = some true then .flagged
            else .idle) by
      have h := hstep _ hout.1 hout.2
      have hgrow := h.grows hg₂.ok.tables
      exact ⟨(h₁.trans h₂).trans (.single h), v, hv₂.mono hgrow.vars,
        .inr ⟨Nat.le_of_not_lt hsmall, aux, e₂.state.clauses.length, hgrow.auxs vs aux haux,
          Encoder.emit_new e₂ _ _ _⟩⟩
    by_cases hc : e₂.state.value v ≠ some false ∧ e₂.state.value aux = some true
    · rw [if_pos hc]
      refine ⟨⟨⟨negative aux, by simp [hlits], hauxroot, eval_negative.mpr hc.2⟩, trivial⟩, ?_⟩
      exact .binary rfl (fun _ _ h => absurd rfl h) fun l hl => by cases hl
    · rw [if_neg hc]
      have hopen := pair_open hc
      refine ⟨⟨?_, hunst⟩, .binary rfl (fun _ _ _ => hopen) fun l hl => by cases hl⟩
      rw [hlits]
      exact hopen.elim (fun h => ⟨_, List.mem_cons_self, h⟩) fun h => ⟨negative aux, by simp, h⟩

end Constraint

end Resolvo
