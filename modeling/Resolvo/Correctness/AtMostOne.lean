import Resolvo.Correctness.Handlers

/-!
# `Correctness.AtMostOne` — extending the at-most-one encodings

When no task is left the recorded candidates join the at-most-one encoding of their package: every tracked
variable gets, for every helper, the clause that says its index has that bit. Helpers are allocated when
the indices run out of bits, and then the tracked variables get the clauses of the new bit.
-/

set_option linter.unusedSectionVars false

namespace Resolvo

open Sat Relation SolverState

variable {N S F : Type} [DecidableEq N] [DecidableEq S]

/-! ## Rules for adding a variable to a tracker -/

section Rules

variable {V σ : Type} [DecidableEq V] {allocClause : V → V → Bool → σ → σ} {allocVar : σ → V × σ}

/-- What every clause and every helper preserves, `growHelpers` preserves. -/
theorem AtMostOnceTracker.growHelpers_rule (Inv : σ → Prop)
    (hclause : ∀ a b bit st, Inv st → Inv (allocClause a b bit st))
    (hvar : ∀ st, Inv st → Inv (allocVar st).2) (fuel : Nat) (t : AtMostOnceTracker V) {st : σ}
    (h : Inv st) : Inv (growHelpers allocClause allocVar fuel t st).2 := by
  induction fuel generalizing t st with
  | zero => exact h
  | succ fuel ih =>
      simp only [growHelpers]
      split
      · exact ih _ (List.foldl_rule Inv _ (hvar st h) fun st c _ hst => hclause _ _ _ st hst)
      · exact h

theorem AtMostOnceTracker.add_rule (Inv : σ → Prop)
    (hclause : ∀ a b bit st, Inv st → Inv (allocClause a b bit st))
    (hvar : ∀ st, Inv st → Inv (allocVar st).2) (t : AtMostOnceTracker V) (v : V) {st : σ}
    (h : Inv st) : Inv (t.add v allocClause allocVar st).2.2 := by
  simp only [add]
  split
  · exact h
  · split
    · exact h
    · exact List.foldl_rule Inv _ (growHelpers_rule Inv hclause hvar _ t h)
        fun st c _ hst => hclause _ _ _ st hst

/-- An update that commutes with every clause and every helper commutes with `growHelpers`. -/
theorem AtMostOnceTracker.growHelpers_hom (f : σ → σ)
    (hclause : ∀ a b bit st, allocClause a b bit (f st) = f (allocClause a b bit st))
    (hvar : ∀ st, allocVar (f st) = ((allocVar st).1, f (allocVar st).2)) (fuel : Nat)
    (t : AtMostOnceTracker V) (st : σ) :
    growHelpers allocClause allocVar fuel t (f st) =
      ((growHelpers allocClause allocVar fuel t st).1,
        f (growHelpers allocClause allocVar fuel t st).2) := by
  induction fuel generalizing t st with
  | zero => rfl
  | succ fuel ih =>
      simp only [growHelpers, hvar]
      split
      · rw [← ih]
        congr 1
        exact List.foldl_hom f fun st c => hclause _ _ _ st
      · rfl

theorem AtMostOnceTracker.add_hom (f : σ → σ)
    (hclause : ∀ a b bit st, allocClause a b bit (f st) = f (allocClause a b bit st))
    (hvar : ∀ st, allocVar (f st) = ((allocVar st).1, f (allocVar st).2))
    (t : AtMostOnceTracker V) (v : V) (st : σ) :
    t.add v allocClause allocVar (f st) =
      ((t.add v allocClause allocVar st).1, (t.add v allocClause allocVar st).2.1,
        f (t.add v allocClause allocVar st).2.2) := by
  simp only [add]
  split
  · rfl
  · split
    · rfl
    · rw [growHelpers_hom f hclause hvar]
      refine Prod.ext rfl (Prod.ext rfl ?_)
      exact List.foldl_hom f fun st c => hclause _ _ _ st

end Rules

section AtMostOne

variable {P : DependencyProvider N S} {problem : Problem S} {A : RunFacts} {enc enc' : Encoder N S F}

/-! ## One clause -/

/-- The clause that ties a variable to one bit of its index. -/
def BitClause (s : SolverState N S F) (name : N) (a helper : VariableId) (bit : Bool) : Prop :=
  ∃ id : ClauseId,
    s.clauses[id]? = some (.forbidMultipleInstances a (Encoder.helperLiteral helper bit) name)

theorem BitClause.mono {s s' : SolverState N S F} {name : N} {a helper : VariableId} {bit : Bool}
    (h : BitClause s name a helper bit) (hg : s.Grows s') : BitClause s' name a helper bit := by
  obtain ⟨id, hc⟩ := h
  exact ⟨id, getElem?_of_isPrefix hg.clauses hc⟩

/-- A clause of the at-most-one encoding is due: the tracker has both variables, and if both of its
    literals are false then the helper is new or several candidates of the package may be true. -/
structure BitDue (P : DependencyProvider N S) (A : RunFacts) (enc : Encoder N S F) (name : N)
    (a helper : VariableId) (bit : Bool) : Prop where
  indexed : ∃ tr, ∃ i j : Nat, enc.state.atMostOneTrackers.get? name = some tr ∧
    tr.vars[j]? = some a ∧ tr.helpers[i]? = some helper ∧ bit = j.testBit i
  both : enc.state.decisionTracker.Unpropagated helper ∨
    (A.tracked → enc.state.value a = some true → (P.candidatesOf name).allowMultiple = true)

/-- A variable that was not propagated before some steps of the encoder is not propagated after them. -/
theorem EncSteps.unpropagated (h : EncSteps P problem A enc enc') (hP : P.WellFormed)
    (hg : EncGood P problem A enc) {v : VariableId}
    (hv : enc.state.decisionTracker.Unpropagated v) : enc'.state.decisionTracker.Unpropagated v := by
  obtain ⟨hpre, hidx⟩ := EncSteps.trail_prefix h hP hg.ok hg.trail
  intro e he
  refine hv e ?_
  rw [hidx] at he
  obtain ⟨rest, hrest⟩ := hpre
  have hle := hg.trail.core.tracker.propagate_le
  rw [← hrest, List.take_append_of_le_length (by simpa using hle)] at he
  exact he

theorem BitDue.steps {name : N} {a helper : VariableId} {bit : Bool}
    (h : BitDue P A enc name a helper bit) (hs : EncSteps P problem A enc enc') (hP : P.WellFormed)
    (hg : EncGood P problem A enc) : BitDue P A enc' name a helper bit := by
  have hgrow := EncSteps.grows hs hP hg.ok
  obtain ⟨⟨tr, i, j, htr, hj, hi, hbit⟩, hboth⟩ := h
  obtain ⟨tr', htr', hvars, hhelpers⟩ := hgrow.trackers name tr htr
  refine ⟨⟨tr', i, j, htr', getElem?_of_isPrefix hvars hj, getElem?_of_isPrefix hhelpers hi, hbit⟩, ?_⟩
  refine hboth.imp (fun hu => EncSteps.unpropagated hs hP hg hu) fun hm ht hv => hm ht ?_
  obtain ⟨x, -, hx⟩ := (hg.ok.tables.trackers name tr htr).vars a (List.mem_of_getElem? hj)
  exact (EncSteps.positive_of hs hP hg (hx.mono hgrow.vars) hv).2

/-- The encoder acts on a clause of the at-most-one encoding wherever it is not open. -/
theorem forbid_noticed {s : SolverState N S F} {a l : Literal} {kind : Clause N}
    (hb : kind.isBinary = true)
    (hside : ∀ m, m = a ∨ m = l → ∀ o, s.variableMap.origins[m.var]? = some o → ¬ o.OneSided) :
    Noticed A s (some (a, l)) kind
      (Encoder.forbidOutcome a l (s.decisionTracker.eval a) (s.decisionTracker.eval l)) := by
  refine .binary hb (fun _ _ ho => ?_) fun m hm => ?_
  · by_cases ha : s.decisionTracker.eval a = some false
    · refine .inr fun hl => ho ?_
      show Encoder.forbidOutcome a l (s.decisionTracker.eval a) (s.decisionTracker.eval l) = _
      rw [ha, hl]
      rfl
    · exact .inl ha
  · rcases hea : s.decisionTracker.eval a with _ | _ | _ <;>
      rcases hel : s.decisionTracker.eval l with _ | _ | _ <;>
      simp only [hea, hel, Encoder.forbidOutcome] at hm <;> cases hm
    · exact ⟨by simp [hea], fun o ho h => absurd h (hside _ (.inl rfl) o ho)⟩
    · exact ⟨by simp [hel], fun o ho h => absurd h (hside _ (.inr rfl) o ho)⟩

theorem addForbidClause_spec (hg : EncGood P problem A enc) {name : N}
    {a helper : VariableId} {bit : Bool} (h : BitDue P A enc name a helper bit) :
    EncSteps P problem A enc (Encoder.addForbidClause name a helper bit enc) ∧
      BitClause (Encoder.addForbidClause name a helper bit enc).state name a helper bit := by
  obtain ⟨⟨tr, i, j, htr, hj, hi, hbit⟩, hboth⟩ := h
  have hok := hg.ok.tables.trackers name tr htr
  obtain ⟨x, hx, hxa⟩ := hok.vars a (List.mem_of_getElem? hj)
  have hhelper := hok.helpers helper (List.mem_of_getElem? hi)
  have haroot := hg.ok.tables.vars.lookup_ne_root hxa
  rw [Encoder.addForbidClause_eq P]
  generalize hl : Encoder.helperLiteral helper bit = l
  have hlvar : l.var = helper := by rw [← hl, Encoder.helperLiteral_var]
  have hlroot : l.var ≠ VariableId.root := by
    rw [hlvar]
    rintro rfl
    rw [(hg.ok.tables.vars.root _).mpr rfl] at hhelper
    cases hhelper
  have hlits : enc.state.kindLiterals (.forbidMultipleInstances a l name) = [negative a, l] := rfl
  have hne : negative a ≠ l := by
    rintro rfl
    have hxo := (hg.ok.tables.vars.lookup_iff x a).mp hxa
    rw [← hlvar] at hhelper
    exact absurd (hxo.symm.trans hhelper) (by simp)
  suffices hout : OutcomeOk P A enc.state (.forbidMultipleInstances a l name)
      (Encoder.forbidOutcome (negative a) l (enc.state.decisionTracker.eval (negative a))
        (enc.state.decisionTracker.eval l)) by
    refine ⟨.single (.emit enc _ _ _ ⟨tr, i, j, htr, hj, hlvar ▸ hi, ?_⟩ trivial
      (fun w hw => Option.some.inj hw ▸ watchOk_pair _ _ _) (fun _ => rfl) hout
      (forbid_noticed rfl fun m hm o ho hside => ?_)),
      enc.state.clauses.length, ?_⟩
    · rw [← hl, Encoder.helperLiteral_negate, hbit]
    · -- neither variable is one-sided
      rcases hm with rfl | rfl
      · have hxo := (hg.ok.tables.vars.lookup_iff x a).mp hxa
        obtain rfl := Option.some.inj (ho.symm.trans hxo)
        exact hside.elim
      · rw [hlvar, hhelper] at ho
        obtain rfl := Option.some.inj ho
        exact hside.elim
    · rw [hl]
      exact Encoder.emit_new enc _ _ _
  have hopen : (∃ m ∈ [negative a, l], enc.state.decisionTracker.eval m ≠ some false) →
      OutcomeOk P A enc.state (.forbidMultipleInstances a l name) .idle := fun h => h
  cases hea : enc.state.decisionTracker.eval (negative a) with
  | none =>
      cases hel : enc.state.decisionTracker.eval l with
      | none => exact hopen ⟨l, by simp, by simp [hel]⟩
      | some b =>
          cases b with
          | true => exact hopen ⟨l, by simp, by simp [hel]⟩
          | false =>
              refine ⟨by simp [hlits], ?_, fun _ _ => rfl, ?_, ⟨l, by simp [hlits], hne.symm, hlroot⟩,
                trivial⟩
              · exact (List.getElem?_eq_some_iff.mp
                  ((hg.ok.tables.vars.lookup_iff x a).mp hxa)).1
              · intro m hm hma
                rcases List.mem_pair.mp (hlits ▸ hm) with rfl | rfl
                · exact absurd rfl hma
                · exact hel
  | some b =>
      cases b with
      | true => exact hopen ⟨negative a, by simp, by simp [hea]⟩
      | false =>
          cases hel : enc.state.decisionTracker.eval l with
          | none =>
              refine ⟨by simp [hlits], ?_, ?_, ?_, ⟨negative a, by simp [hlits], hne, haroot⟩, trivial⟩
              · rw [hlvar]
                exact (List.getElem?_eq_some_iff.mp hhelper).1
              · intro y hy
                have := (hg.ok.tables.vars.lookup_iff y _).mp hy
                rw [hlvar, hhelper] at this
                cases this
              · intro m hm hml
                rcases List.mem_pair.mp (hlits ▸ hm) with rfl | rfl
                · exact hea
                · exact absurd rfl hml
          | some b =>
              cases b with
              | true => exact hopen ⟨l, by simp, by simp [hel]⟩
              | false =>
                  refine ⟨⟨l, by simp [hlits], hlroot, hel⟩, ?_⟩
                  exact hboth.imp (fun hu => hlvar ▸ hu) fun hm ht => hm ht (eval_negative.mp hea)

/-- Adding a clause does not look at the trackers. -/
theorem addForbidClause_setTracker (P : DependencyProvider N S) (enc : Encoder N S F) (name : N)
    (a helper : VariableId) (bit : Bool) (name' : N) (tr : AtMostOnceTracker VariableId) :
    Encoder.addForbidClause name a helper bit (enc.setTracker name' tr) =
      (Encoder.addForbidClause name a helper bit enc).setTracker name' tr := by
  rw [Encoder.addForbidClause_eq P, Encoder.addForbidClause_eq P]
  exact (Encoder.independent_setTracker (P := P) name' tr).emit enc _ _ _

theorem addForbidClause_clearForbid (P : DependencyProvider N S) (enc : Encoder N S F) (name : N)
    (a helper : VariableId) (bit : Bool) :
    Encoder.addForbidClause name a helper bit enc.clearForbid =
      (Encoder.addForbidClause name a helper bit enc).clearForbid := by
  rw [Encoder.addForbidClause_eq P, Encoder.addForbidClause_eq P]
  exact (Encoder.independent_clearForbid (P := P)).emit enc _ _ _

theorem setTracker_setTracker (enc : Encoder N S F) (name : N)
    (tr tr' : AtMostOnceTracker VariableId) :
    (enc.setTracker name tr).setTracker name tr' = enc.setTracker name tr' := by
  simp only [Encoder.setTracker, IndexMap.insert_insert]

/-! ## Growing the encoding -/

/-- A tracker whose clauses are all there, with enough helpers to number its variables. -/
structure AmoEncoded (s : SolverState N S F) (name : N) (tr : AtMostOnceTracker VariableId) : Prop where
  clauses : ∀ (i j : Nat) a helper, tr.vars[j]? = some a → tr.helpers[i]? = some helper →
    BitClause s name a helper (j.testBit i)
  capacity : tr.vars.length ≤ 2 ^ tr.helpers.length
  start : tr.vars = [] → tr.helpers = []

theorem AmoEncoded.mono {s s' : SolverState N S F} {name : N} {tr : AtMostOnceTracker VariableId}
    (h : AmoEncoded s name tr) (hg : s.Grows s') : AmoEncoded s' name tr where
  clauses := fun i j a helper hj hi => (h.clauses i j a helper hj hi).mono hg
  capacity := h.capacity
  start := h.start

theorem AmoEncoded.empty (s : SolverState N S F) (name : N) : AmoEncoded s name {} where
  clauses := by simp
  capacity := by simp
  start := fun _ => rfl

/-- A helper added to a tracker, with the clauses of its bit. -/
theorem AmoEncoded.addHelper {s s' : SolverState N S F} {name : N} {tr : AtMostOnceTracker VariableId}
    (h : AmoEncoded s name tr) (helper : VariableId) (hg : s.Grows s') (hne : tr.vars ≠ [])
    (hall : ∀ c ∈ tr.vars.zipIdx, BitClause s' name c.1 helper (c.2.testBit tr.helpers.length)) :
    AmoEncoded s' name { tr with helpers := tr.helpers ++ [helper] } where
  clauses := by
    intro i j a helper' hj hi
    rcases Nat.lt_or_ge i tr.helpers.length with hlt | hge
    · rw [List.getElem?_append_left hlt] at hi
      exact (h.clauses i j a helper' hj hi).mono hg
    · rw [List.getElem?_append_right hge] at hi
      obtain ⟨hi0, rfl⟩ : i - tr.helpers.length = 0 ∧ helper = helper' := by
        cases hk : i - tr.helpers.length with
        | zero => exact ⟨rfl, by simpa [hk] using hi⟩
        | succ k => simp [hk] at hi
      obtain rfl : i = tr.helpers.length := by omega
      exact hall (a, j) (List.mem_zipIdx_iff_getElem?.mpr hj)
  capacity := by
    refine h.capacity.trans (Nat.pow_le_pow_right (by decide) ?_)
    simp
  start := fun h' => absurd h' hne

/-- A variable added to a tracker, with its clauses for every helper. -/
theorem AmoEncoded.addVar {s s' : SolverState N S F} {name : N} {tr : AtMostOnceTracker VariableId}
    {v : VariableId} (h : AmoEncoded s name tr) (hg : s.Grows s')
    (hcap : tr.vars.length + 1 ≤ 2 ^ tr.helpers.length)
    (hall : ∀ c ∈ tr.helpers.zipIdx, BitClause s' name v c.1 (tr.vars.length.testBit c.2)) :
    AmoEncoded s' name { tr with vars := tr.vars ++ [v] } where
  clauses := by
    intro i j a helper hj hi
    rcases Nat.lt_or_ge j tr.vars.length with hlt | hge
    · rw [List.getElem?_append_left hlt] at hj
      exact (h.clauses i j a helper hj hi).mono hg
    · rw [List.getElem?_append_right hge] at hj
      obtain ⟨hj0, rfl⟩ : j - tr.vars.length = 0 ∧ v = a := by
        cases hk : j - tr.vars.length with
        | zero => exact ⟨rfl, by simpa [hk] using hj⟩
        | succ k => simp [hk] at hj
      obtain rfl : j = tr.vars.length := by omega
      exact hall (helper, i) (List.mem_zipIdx_iff_getElem?.mpr hi)
  capacity := by simpa using hcap
  start := by simp

/-- The package of a tracker, as far as the encoder knows it. -/
def TrackerAllowed (P : DependencyProvider N S) (problem : Problem S) (A : RunFacts)
    (enc : Encoder N S F) (name : N) : Prop :=
  A.Ordered P problem → enc.Processed name ∧ (P.candidatesOf name).allowMultiple = false

theorem TrackerAllowed.steps {name : N} (h : TrackerAllowed P problem A enc name)
    (hs : EncSteps P problem A enc enc') : TrackerAllowed P problem A enc' name :=
  fun hh => ⟨EncSteps.processed hs (h hh).1, (h hh).2⟩

/-- Storing a tracker that extends the stored one. -/
theorem setTracker_steps {name : N} {tr : AtMostOnceTracker VariableId}
    (h : enc.state.TrackerOk P name tr)
    (hvars : (enc.state.atMostOneTrackers.getD name {}).vars <+: tr.vars)
    (hhelpers : (enc.state.atMostOneTrackers.getD name {}).helpers <+: tr.helpers)
    (hname : TrackerAllowed P problem A enc name) (hfinal : A.final) :
    EncSteps P problem A enc (enc.setTracker name tr) :=
  .single (.tracker enc name tr h hvars hhelpers hname hfinal)

/-- The bits of one helper, for a list of variables. -/
theorem addBits_spec (hP : P.WellFormed) (name : N) (helper : VariableId) (bitIdx : Nat)
    (l : List (VariableId × Nat)) (hg : EncGood P problem A enc)
    (h : ∀ c ∈ l, BitDue P A enc name c.1 helper (c.2.testBit bitIdx)) :
    EncSteps P problem A enc
        (l.foldl (fun e c => Encoder.addForbidClause name c.1 helper (c.2.testBit bitIdx) e) enc) ∧
      ∀ c ∈ l, BitClause (l.foldl
        (fun e c => Encoder.addForbidClause name c.1 helper (c.2.testBit bitIdx) e) enc).state
        name c.1 helper (c.2.testBit bitIdx) := by
  refine EncSteps.foldl_post
    (fun (c : VariableId × Nat) s => BitClause s name c.1 helper (c.2.testBit bitIdx))
    (fun _ _ _ hgrow h => BitClause.mono h hgrow) hP hg l ?_
  intro e c hc he
  exact addForbidClause_spec (EncSteps.good he hP hg) ((h c hc).steps he hP hg)

/-- The bits of one variable, for a list of helpers. -/
theorem addIndex_spec (hP : P.WellFormed) (name : N) (v : VariableId) (idx : Nat)
    (l : List (VariableId × Nat)) (hg : EncGood P problem A enc)
    (h : ∀ c ∈ l, BitDue P A enc name v c.1 (idx.testBit c.2)) :
    EncSteps P problem A enc
        (l.foldl (fun e c => Encoder.addForbidClause name v c.1 (idx.testBit c.2) e) enc) ∧
      ∀ c ∈ l, BitClause (l.foldl
        (fun e c => Encoder.addForbidClause name v c.1 (idx.testBit c.2) e) enc).state
        name v c.1 (idx.testBit c.2) := by
  refine EncSteps.foldl_post
    (fun (c : VariableId × Nat) s => BitClause s name v c.1 (idx.testBit c.2))
    (fun _ _ _ hgrow h => BitClause.mono h hgrow) hP hg l ?_
  intro e c hc he
  exact addForbidClause_spec (EncSteps.good he hP hg) ((h c hc).steps he hP hg)

/-- What growing a tracker leaves behind. -/
structure Grown (s : SolverState N S F) (name : N) (tr tr' : AtMostOnceTracker VariableId) : Prop where
  vars : tr'.vars = tr.vars
  helpers : tr.helpers <+: tr'.helpers
  encoded : AmoEncoded s name tr'

/-- The helpers of a tracker are allocated one by one, each with the bits of the tracked variables. The
    encoder is looked at as if the tracker were stored all along. -/
theorem growHelpers_spec (hP : P.WellFormed) (hfinal : A.final) {name : N} (fuel : Nat)
    (t : AtMostOnceTracker VariableId) (st : Encoder N S F)
    (hg : EncGood P problem A (st.setTracker name t)) (hne : t.vars ≠ [])
    (hname : TrackerAllowed P problem A (st.setTracker name t) name)
    (henc : AmoEncoded (st.setTracker name t).state name t) :
    let r := AtMostOnceTracker.growHelpers (Encoder.addForbidClause name)
      (Encoder.allocForbidMultiple name) fuel t st
    EncSteps P problem A (st.setTracker name t) (r.2.setTracker name r.1) ∧
      Grown (r.2.setTracker name r.1).state name t r.1 ∧
      (t.vars.length ≤ fuel + t.helpers.length → r.1.vars.length + 1 ≤ 2 ^ r.1.helpers.length) := by
  induction fuel generalizing t st with
  | zero =>
      refine ⟨.refl, ⟨rfl, List.prefix_refl _, henc⟩, fun hle => ?_⟩
      have hlt : t.helpers.length < 2 ^ t.helpers.length := Nat.lt_two_pow_self
      simp only [AtMostOnceTracker.growHelpers]
      omega
  | succ fuel ih =>
      by_cases hfull : t.vars.length > 2 ^ t.helpers.length - 1
      · simp only [AtMostOnceTracker.growHelpers, if_pos hfull]
        -- the helper is allocated and stored
        let e₁ := (st.setTracker name t).allocVar (.forbidMultiple name)
        have h₁ : EncSteps P problem A (st.setTracker name t) e₁ :=
          .single (.alloc _ _ trivial fun _ h => by cases h)
        have hg₁ := EncSteps.good h₁ hP hg
        have hgrow₁ := EncSteps.grows h₁ hP hg.ok
        generalize hhelper : st.state.variableMap.origins.length = helper
        have horigin : e₁.state.variableMap.origins[helper]? = some (.forbidMultiple name) := by
          rw [← hhelper]
          exact VariableMap.alloc_origin _ _
        have hfresh : ∀ v, v < st.state.variableMap.origins.length → v ≠ helper := by
          intro v hv
          rw [← hhelper]
          exact Nat.ne_of_lt hv
        have htr : (st.setTracker name t).state.atMostOneTrackers.get? name = some t :=
          IndexMap.get?_insert_self _ _ _
        have hok := hg.ok.tables.trackers name t htr
        have hok₁ := hok.mono hgrow₁.vars
        have htr₁ : e₁.state.atMostOneTrackers.getD name {} = t := by
          show ((st.setTracker name t).state.atMostOneTrackers.get? name).getD {} = t
          rw [htr]
          rfl
        let t' : AtMostOnceTracker VariableId := { t with helpers := t.helpers ++ [helper] }
        have h₂ : EncSteps P problem A e₁ (e₁.setTracker name t') := by
          refine setTracker_steps ⟨hok₁.vars_nodup, ?_, hok₁.vars, ?_⟩ ?_ ?_ (hname.steps h₁) hfinal
          · refine hok₁.helpers_nodup.append (List.nodup_singleton _) ?_
            intro v hv hv'
            obtain rfl := List.mem_singleton.mp hv'
            exact hfresh v (List.getElem?_eq_some_iff.mp (hok.helpers v hv)).1 rfl
          · intro v hv
            rcases List.mem_append.mp hv with hv | hv
            · exact hok₁.helpers v hv
            · obtain rfl := List.mem_singleton.mp hv
              exact horigin
          · rw [htr₁]
          · rw [htr₁]
            exact List.prefix_append _ _
        have hg₂ := EncSteps.good h₂ hP hg₁
        have hgrow₂ := EncSteps.grows h₂ hP hg₁.ok
        -- nothing assigned so far is the helper
        have hunprop : (e₁.setTracker name t').state.decisionTracker.Unpropagated helper := by
          intro e he
          exact hfresh _ (hg.trail.allocated e (List.mem_of_mem_take he))
        have hstored : e₁.setTracker name t' =
            ((st.allocVar (.forbidMultiple name)).setTracker name t') :=
          setTracker_setTracker (st.allocVar (.forbidMultiple name)) name t t'
        obtain ⟨h₃, hbits⟩ := addBits_spec hP name helper t.helpers.length t.vars.zipIdx hg₂ fun c hc =>
            ⟨⟨t', t.helpers.length, c.2, IndexMap.get?_insert_self _ _ _,
              List.mem_zipIdx_iff_getElem?.mp hc, by simp [t'], rfl⟩, .inl hunprop⟩
        have hg₃ := EncSteps.good h₃ hP hg₂
        have hgrow₃ := EncSteps.grows h₃ hP hg₂.ok
        have hcomm : t.vars.zipIdx.foldl
            (fun e c => Encoder.addForbidClause name c.1 helper (c.2.testBit t.helpers.length) e)
            (e₁.setTracker name t') =
            (t.vars.zipIdx.foldl
              (fun e c => Encoder.addForbidClause name c.1 helper (c.2.testBit t.helpers.length) e)
              (st.allocVar (.forbidMultiple name))).setTracker name t' := by
          rw [hstored]
          exact List.foldl_hom (fun e : Encoder N S F => e.setTracker name t')
            fun e c => addForbidClause_setTracker P e name c.1 helper _ name t'
        rw [hcomm] at h₃ hg₃ hgrow₃ hbits
        have henc' := henc.addHelper helper ((hgrow₁.trans hgrow₂).trans hgrow₃) hne hbits
        have hsteps := (h₁.trans h₂).trans h₃
        subst hhelper
        obtain ⟨h₄, hgrown, hcap⟩ := ih t' _ hg₃ hne (hname.steps hsteps) henc'
        refine ⟨hsteps.trans h₄, ⟨hgrown.vars, ?_, hgrown.encoded⟩, fun hle => hcap ?_⟩
        · exact (List.prefix_append _ _).trans hgrown.helpers
        · simp only [t', List.length_append, List.length_singleton]
          omega
      · simp only [AtMostOnceTracker.growHelpers, if_neg hfull]
        refine ⟨.refl, ⟨rfl, List.prefix_refl _, henc⟩, fun _ => ?_⟩
        have hpos : 0 < 2 ^ t.helpers.length := Nat.two_pow_pos _
        omega

/-! ## Adding a candidate -/

/-- The stored tracker of a package, or an empty one. -/
theorem SolverState.Tables.trackerOk {s : SolverState N S F} {new : IndexMap N VariableId}
    (h : s.Tables P new) (name : N) : s.TrackerOk P name (s.atMostOneTrackers.getD name {}) := by
  cases htr : s.atMostOneTrackers.get? name with
  | none =>
      simp only [IndexMap.getD, htr, Option.getD_none]
      exact ⟨List.nodup_nil, List.nodup_nil, by simp, by simp⟩
  | some tr =>
      simp only [IndexMap.getD, htr, Option.getD_some]
      exact h.trackers name tr htr

/-- Every stored tracker has all its clauses. -/
def TrackersEncoded (s : SolverState N S F) : Prop :=
  ∀ name tr, s.atMostOneTrackers.get? name = some tr → AmoEncoded s name tr

theorem TrackersEncoded.getD {s : SolverState N S F} (h : TrackersEncoded s) (name : N) :
    AmoEncoded s name (s.atMostOneTrackers.getD name {}) := by
  cases htr : s.atMostOneTrackers.get? name with
  | none => simpa only [IndexMap.getD, htr, Option.getD_none] using AmoEncoded.empty s name
  | some tr => simpa only [IndexMap.getD, htr, Option.getD_some] using h name tr htr

/-- **Tracking one more candidate.** -/
theorem add_spec (hP : P.WellFormed) (hfinal : A.final) {name : N} {v : VariableId} {x : S}
    (hg : EncGood P problem A enc) (hx : x ∈ (P.candidatesOf name).candidates)
    (hv : enc.state.IsVar (.solvable x) v) (hname : TrackerAllowed P problem A enc name)
    (henc : AmoEncoded enc.state name (enc.state.atMostOneTrackers.getD name {})) :
    let r := (enc.state.atMostOneTrackers.getD name {}).add v (Encoder.addForbidClause name)
      (Encoder.allocForbidMultiple name) enc
    EncSteps P problem A enc (r.2.2.setTracker name r.2.1) ∧ v ∈ r.2.1.vars ∧
      AmoEncoded (r.2.2.setTracker name r.2.1).state name r.2.1 ∧
      (r.1 = false → r.2.1 = enc.state.atMostOneTrackers.getD name {}) ∧
      (r.1 = true → r.2.1.vars = (enc.state.atMostOneTrackers.getD name {}).vars ++ [v]) := by
  have hok := hg.ok.tables.trackerOk name
  -- a candidate that is true but not tracked is of a package that allows multiples
  have hmulti : v ∉ (enc.state.atMostOneTrackers.getD name {}).vars → A.tracked →
      enc.state.value v = some true → (P.candidatesOf name).allowMultiple = true := by
    intro hnew ht hvt
    have hxname := hP.candidate_name name x hx
    rcases hg.trail.tracked ht x v hv hvt with hm | hm
    · exact (hg.ok.multiNames name (hxname ▸ hm)).1
    · rw [hxname] at hm
      exact absurd hm hnew
  have hstore : EncSteps P problem A enc
      (enc.setTracker name (enc.state.atMostOneTrackers.getD name {})) :=
    setTracker_steps hok (List.prefix_refl _) (List.prefix_refl _) hname hfinal
  have hvalue : (enc.setTracker name (enc.state.atMostOneTrackers.getD name {})).state.value v =
      enc.state.value v := rfl
  generalize enc.state.atMostOneTrackers.getD name {} = t at hok hmulti hstore henc hvalue ⊢
  have hg₁ := EncSteps.good hstore hP hg
  have hgrow₁ := EncSteps.grows hstore hP hg.ok
  simp only [AtMostOnceTracker.add]
  by_cases hmem : v ∈ t.vars
  · rw [if_pos hmem]
    exact ⟨hstore, hmem, henc.mono hgrow₁, fun _ => rfl, fun h => by cases h⟩
  rw [if_neg hmem]
  by_cases hempty : t.vars.isEmpty = true
  · -- the first candidate needs no clause
    rw [if_pos hempty]
    have hnil : t.vars = [] := List.isEmpty_iff.mp hempty
    have hset : EncSteps P problem A (enc.setTracker name t)
        ((enc.setTracker name t).setTracker name { t with vars := [v] }) := by
      have htr : (enc.setTracker name t).state.atMostOneTrackers.getD name {} = t := by
        show ((enc.state.atMostOneTrackers.insert name t).get? name).getD {} = t
        rw [IndexMap.get?_insert_self]
        rfl
      refine setTracker_steps ⟨List.nodup_singleton _, hok.helpers_nodup, ?_, hok.helpers⟩ ?_ ?_
        (hname.steps hstore) hfinal
      · intro w hw
        obtain rfl := List.mem_singleton.mp hw
        exact ⟨x, hx, hv⟩
      · rw [htr, hnil]
        exact List.nil_prefix
      · rw [htr]
    rw [setTracker_setTracker] at hset
    refine ⟨hstore.trans hset, List.mem_singleton_self v, ⟨?_, ?_, by simp⟩, (fun h => by cases h), ?_⟩
    · intro i j a helper hj hi
      rw [henc.start hnil] at hi
      simp at hi
    · exact Nat.one_le_two_pow
    · intro _
      rw [hnil]
      rfl
  rw [if_neg hempty]
  have hne : t.vars ≠ [] := fun h => hempty (List.isEmpty_iff.mpr h)
  obtain ⟨hgrow, hgrown, hcap⟩ := growHelpers_spec hP hfinal t.vars.length t enc hg₁ hne
    (hname.steps hstore) (henc.mono hgrow₁)
  have hcap := hcap (Nat.le_add_right _ _)
  have hg₂ := EncSteps.good hgrow hP hg₁
  have hsteps₂ := hstore.trans hgrow
  have hgrows₂ := EncSteps.grows hsteps₂ hP hg.ok
  have hvt₂ : (_ : Encoder N S F).state.value v = some true → enc.state.value v = some true :=
    fun h => (EncSteps.positive_of hsteps₂ hP hg (hv.mono hgrows₂.vars) h).2
  have hv₂ := hv.mono hgrows₂.vars
  generalize AtMostOnceTracker.growHelpers (Encoder.addForbidClause name)
    (Encoder.allocForbidMultiple name) t.vars.length t enc = r at hgrow hgrown hcap hg₂ hsteps₂ hvt₂ hv₂ ⊢
  obtain ⟨t₂, st₂⟩ := r
  dsimp only at hgrow hgrown hcap hg₂ hsteps₂ hvt₂ hv₂ ⊢
  -- the candidate joins the tracker
  let t₃ : AtMostOnceTracker VariableId := { t₂ with vars := t₂.vars ++ [v] }
  have htr₂ : (st₂.setTracker name t₂).state.atMostOneTrackers.getD name {} = t₂ := by
    show ((st₂.state.atMostOneTrackers.insert name t₂).get? name).getD {} = t₂
    rw [IndexMap.get?_insert_self]
    rfl
  have hok₂ := hg₂.ok.tables.trackers name t₂ (IndexMap.get?_insert_self _ _ _)
  have hset : EncSteps P problem A (st₂.setTracker name t₂)
      ((st₂.setTracker name t₂).setTracker name t₃) := by
    refine setTracker_steps ⟨?_, hok₂.helpers_nodup, ?_, hok₂.helpers⟩ ?_ ?_ (hname.steps hsteps₂)
      hfinal
    · refine hok₂.vars_nodup.append (List.nodup_singleton _) ?_
      intro w hw hw'
      obtain rfl := List.mem_singleton.mp hw'
      rw [hgrown.vars] at hw
      exact hmem hw
    · intro w hw
      rcases List.mem_append.mp hw with hw | hw
      · exact hok₂.vars w hw
      · obtain rfl := List.mem_singleton.mp hw
        exact ⟨x, hx, hv₂⟩
    · rw [htr₂]
      exact List.prefix_append _ _
    · rw [htr₂]
  rw [setTracker_setTracker] at hset
  have hg₃ := EncSteps.good hset hP hg₂
  have hgrow₃ := EncSteps.grows hset hP hg₂.ok
  obtain ⟨hindex, hbits⟩ := addIndex_spec hP name v t₂.vars.length
    t₂.helpers.zipIdx hg₃ fun c hc =>
      ⟨⟨t₃, c.2, t₂.vars.length, IndexMap.get?_insert_self _ _ _, by simp [t₃],
        List.mem_zipIdx_iff_getElem?.mp hc, rfl⟩, .inr fun ht hvt => hmulti hmem ht (hvt₂ hvt)⟩
  have hgrow₄ := EncSteps.grows hindex hP hg₃.ok
  have hcomm : t₂.helpers.zipIdx.foldl
      (fun e c => Encoder.addForbidClause name v c.1 (t₂.vars.length.testBit c.2) e)
      (st₂.setTracker name t₃) =
      (t₂.helpers.zipIdx.foldl
        (fun e c => Encoder.addForbidClause name v c.1 (t₂.vars.length.testBit c.2) e)
        st₂).setTracker name t₃ :=
    List.foldl_hom (fun e : Encoder N S F => e.setTracker name t₃)
      fun e c => addForbidClause_setTracker P e name v c.1 _ name t₃
  rw [hcomm] at hindex hgrow₄ hbits
  refine ⟨(hsteps₂.trans hset).trans hindex, ?_, ?_, (fun h => by cases h), ?_⟩
  · exact List.mem_append_right _ (List.mem_singleton_self v)
  · exact hgrown.encoded.addVar (hgrow₃.trans hgrow₄) hcap hbits
  · intro _
    rw [hgrown.vars]

/-! ## The recorded candidates -/

/-- An at-least-one variable that was entered follows every tracked candidate. -/
def AtLeastOneEncoded (s : SolverState N S F) : Prop :=
  ∀ name v, s.atLeastOneTracker.get? name = some v →
    ∀ w ∈ (s.atMostOneTrackers.getD name {}).vars, ∃ id : ClauseId,
      s.clauses[id]? = some (.anyOf v w)

/-- Tracking a candidate changes neither the stored trackers nor the at-least-one variables. -/
theorem add_tables (P : DependencyProvider N S) (enc : Encoder N S F) (name : N)
    (t : AtMostOnceTracker VariableId) (v : VariableId) :
    (t.add v (Encoder.addForbidClause name) (Encoder.allocForbidMultiple name) enc
      ).2.2.state.atMostOneTrackers = enc.state.atMostOneTrackers ∧
    (t.add v (Encoder.addForbidClause name) (Encoder.allocForbidMultiple name) enc
      ).2.2.state.atLeastOneTracker = enc.state.atLeastOneTracker := by
  refine AtMostOnceTracker.add_rule (fun e : Encoder N S F =>
    e.state.atMostOneTrackers = enc.state.atMostOneTrackers ∧
      e.state.atLeastOneTracker = enc.state.atLeastOneTracker) ?_ (fun _ h => h) t v ⟨rfl, rfl⟩
  intro a b bit e h
  rw [Encoder.addForbidClause_eq P]
  obtain ⟨q, tr, as, flags, panicked, heq⟩ := e.emit_eq (P := P)
    (some (negative a, Encoder.helperLiteral b bit))
    (.forbidMultipleInstances a (Encoder.helperLiteral b bit) name)
    (Encoder.forbidOutcome (negative a) (Encoder.helperLiteral b bit)
      (e.state.decisionTracker.eval (negative a))
      (e.state.decisionTracker.eval (Encoder.helperLiteral b bit)))
  rw [heq]
  exact h

/-- Adding a clause that only links an at-least-one variable to a candidate. -/
def Encoder.linkAtLeastOne (enc : Encoder N S F) (atLeastOne candidate : VariableId) : Encoder N S F :=
  (enc.addClause (WatchedLiterals.anyOf (N := N) atLeastOne candidate).1
    (WatchedLiterals.anyOf atLeastOne candidate).2).2

/-- The at-least-one clause of a candidate that is new to its tracker. -/
def Encoder.linkNew (enc : Encoder N S F) (name : N) (v : VariableId) (isNew : Bool) : Encoder N S F :=
  if isNew then
    match enc.state.atLeastOneTracker.get? name with
    | some atLeastOne => enc.linkAtLeastOne atLeastOne v
    | none => enc
  else enc

theorem addPendingForbidClause_eq (enc : Encoder N S F) (name : N) (v : VariableId) :
    enc.addPendingForbidClause (name, v) =
      let r := (enc.state.atMostOneTrackers.getD name {}).add v (Encoder.addForbidClause name)
        (Encoder.allocForbidMultiple name) enc
      (r.2.2.setTracker name r.2.1).linkNew name v r.1 := rfl

/-- The clause that makes an at-least-one variable follow a candidate. -/
theorem anyOf_step (hg : EncGood P problem A enc) {name : N} {ato v : VariableId} {x : S}
    (hato : enc.state.variableMap.origins[ato]? = some (.atLeastOne name))
    (hx : x ∈ (P.candidatesOf name).candidates) (hv : enc.state.IsVar (.solvable x) v)
    (o : EmitOutcome)
    (ho : (o = .idle ∧ (A.hard → A.tracked → enc.state.value v ≠ some true)) ∨
      (o = .forced (positive ato) ∧ enc.state.value v = some true ∧
        enc.state.value ato ≠ some false)) :
    EncStep P problem A enc (enc.emit P (some (positive ato, negative v)) (.anyOf ato v) o) := by
  have hlits : enc.state.kindLiterals (.anyOf ato v) = [positive ato, negative v] := rfl
  refine .emit enc _ _ _ (.inr ⟨name, x, hato, hv, hx⟩) trivial
    (fun w hw => Option.some.inj hw ▸ watchOk_pair _ _ _) (fun _ => rfl) ?_
    (.binary rfl (fun hh ht _ => ?_) fun l hl => ?_)
  rotate_left
  · rcases ho with ⟨rfl, hfree⟩ | ⟨rfl, hvt, hnf⟩
    · exact .inr fun hf => hfree hh ht (eval_negative.mp hf)
    · exact .inl fun hf => hnf (eval_positive.mp hf)
  · rcases ho with ⟨rfl, -⟩ | ⟨rfl, -, hnf⟩
    · cases hl
    · obtain rfl : positive ato = l := by simpa using hl
      exact ⟨fun hf => hnf (eval_positive.mp hf), fun _ _ _ => rfl⟩
  rcases ho with ⟨rfl, -⟩ | ⟨rfl, hvt, -⟩
  · intro r hr
    rw [hato] at hr
    cases hr
  · refine ⟨by simp [hlits], (List.getElem?_eq_some_iff.mp hato).1, ?_, ?_, ?_, trivial⟩
    · intro y hy
      have := (hg.ok.tables.vars.lookup_iff y ato).mp hy
      rw [hato] at this
      cases this
    · intro m hm hne
      rcases List.mem_pair.mp (hlits ▸ hm) with rfl | rfl
      · exact absurd rfl hne
      · exact eval_negative.mpr hvt
    · exact ⟨negative v, by simp [hlits], by simp [negative, positive],
        hg.ok.tables.vars.lookup_ne_root hv⟩

/-- What is known of a recorded candidate. -/
structure TargetOk (P : DependencyProvider N S) (problem : Problem S) (A : RunFacts)
    (enc : Encoder N S F) (name : N) (v : VariableId) : Prop where
  candidate : ∃ x ∈ (P.candidatesOf name).candidates, enc.state.IsVar (.solvable x) v
  allowed : TrackerAllowed P problem A enc name

theorem TargetOk.steps {name : N} {v : VariableId} (h : TargetOk P problem A enc name v)
    (hs : EncSteps P problem A enc enc') (hP : P.WellFormed) (hg : EncGood P problem A enc) :
    TargetOk P problem A enc' name v := by
  obtain ⟨⟨x, hx, hv⟩, ha⟩ := h
  exact ⟨⟨x, hx, hv.mono (EncSteps.grows hs hP hg.ok).vars⟩, ha.steps hs⟩

/-- Both encodings of the packages are complete. -/
structure PackagesEncoded (s : SolverState N S F) : Prop where
  atMostOne : TrackersEncoded s
  atLeastOne : AtLeastOneEncoded s

theorem addPendingForbidClause_spec (hP : P.WellFormed) (hfinal : A.final)
    (hg : EncGood P problem A enc) (henc : PackagesEncoded enc.state) {name : N} {v : VariableId}
    (h : TargetOk P problem A enc name v) :
    EncSteps P problem A enc (enc.addPendingForbidClause (name, v)) ∧
      PackagesEncoded (enc.addPendingForbidClause (name, v)).state ∧
      v ∈ ((enc.addPendingForbidClause (name, v)).state.atMostOneTrackers.getD name {}).vars := by
  obtain ⟨⟨x, hx, hv⟩, hname⟩ := h
  obtain ⟨h₁, hmem, hamo, hold, hnew⟩ := add_spec hP hfinal hg hx hv hname (henc.atMostOne.getD name)
  obtain ⟨htr, hato⟩ := add_tables P enc name (enc.state.atMostOneTrackers.getD name {}) v
  rw [addPendingForbidClause_eq]
  generalize (enc.state.atMostOneTrackers.getD name {}).add v (Encoder.addForbidClause name)
    (Encoder.allocForbidMultiple name) enc = r at h₁ hmem hamo hold hnew htr hato ⊢
  obtain ⟨isNew, t, st⟩ := r
  dsimp only at h₁ hmem hamo hold hnew htr hato ⊢
  have hg₁ := EncSteps.good h₁ hP hg
  have hgrow₁ := EncSteps.grows h₁ hP hg.ok
  have hget : (st.setTracker name t).state.atMostOneTrackers.getD name {} = t := by
    show ((st.state.atMostOneTrackers.insert name t).get? name).getD {} = t
    rw [IndexMap.get?_insert_self]
    rfl
  have hget_ne : ∀ name', name ≠ name' → (st.setTracker name t).state.atMostOneTrackers.get? name' =
      enc.state.atMostOneTrackers.get? name' := by
    intro name' hne
    show (st.state.atMostOneTrackers.insert name t).get? name' = _
    rw [IndexMap.get?_insert_ne _ _ hne, htr]
  have hamo₁ : TrackersEncoded (st.setTracker name t).state := by
    intro name' tr' htr'
    by_cases hne : name = name'
    · subst hne
      have : (st.state.atMostOneTrackers.insert name t).get? name = some tr' := htr'
      rw [IndexMap.get?_insert_self] at this
      exact Option.some.inj this ▸ hamo
    · rw [hget_ne name' hne] at htr'
      exact (henc.atMostOne name' tr' htr').mono hgrow₁
  -- the candidates that were tracked before have their at-least-one clause
  have hlinked : ∀ name' ato, (st.setTracker name t).state.atLeastOneTracker.get? name' = some ato →
      ∀ w ∈ ((st.setTracker name t).state.atMostOneTrackers.getD name' {}).vars,
        (name' = name ∧ isNew = true ∧ w = v) ∨
          ∃ id : ClauseId, (st.setTracker name t).state.clauses[id]? = some (.anyOf ato w) := by
    intro name' ato hato' w hw
    have hato'' : enc.state.atLeastOneTracker.get? name' = some ato := by
      rw [← hato]
      exact hato'
    have hclause : w ∈ (enc.state.atMostOneTrackers.getD name' {}).vars →
        ∃ id : ClauseId, (st.setTracker name t).state.clauses[id]? = some (.anyOf ato w) := by
      intro hw'
      obtain ⟨id, hid⟩ := henc.atLeastOne name' ato hato'' w hw'
      exact ⟨id, getElem?_of_isPrefix hgrow₁.clauses hid⟩
    by_cases hne : name = name'
    · subst hne
      rw [hget] at hw
      cases isNew with
      | false =>
          rw [hold rfl] at hw
          exact .inr (hclause hw)
      | true =>
          rw [hnew rfl] at hw
          rcases List.mem_append.mp hw with hw | hw
          · exact .inr (hclause hw)
          · exact .inl ⟨rfl, rfl, List.mem_singleton.mp hw⟩
    · refine .inr (hclause ?_)
      rw [IndexMap.getD, hget_ne name' hne] at hw
      exact hw
  have hv₁ := hv.mono hgrow₁.vars
  generalize st.setTracker name t = e at h₁ hg₁ hgrow₁ hget hamo₁ hlinked hv₁ ⊢
  cases hl : e.state.atLeastOneTracker.get? name with
  | none =>
      have hlink : e.linkNew name v isNew = e := by
        simp only [Encoder.linkNew, hl, ite_self]
      rw [hlink]
      refine ⟨h₁, ⟨hamo₁, fun name' ato hato' w hw => ?_⟩, hget ▸ hmem⟩
      rcases hlinked name' ato hato' w hw with ⟨rfl, -, -⟩ | h
      · rw [hl] at hato'
        cases hato'
      · exact h
  | some ato =>
      cases isNew with
      | false =>
          refine ⟨h₁, ⟨hamo₁, fun name' ato' hato' w hw => ?_⟩, ?_⟩
          · rcases hlinked name' ato' hato' w hw with ⟨-, h, -⟩ | h
            · cases h
            · exact h
          · show v ∈ (e.state.atMostOneTrackers.getD name {}).vars
            rw [hget]
            exact hmem
      | true =>
          have hlink : e.linkNew name v true =
              e.emit P (some (positive ato, negative v)) (.anyOf ato v) .idle := by
            simp only [Encoder.linkNew, hl]
            rfl
          have horigin : e.state.variableMap.origins[ato]? = some (.atLeastOne name) :=
            (hg₁.ok.tables.atLeastOne name ato).mpr (by rw [hl]; rfl)
          -- a candidate that is new to its tracker is not true
          have hfree : A.hard → A.tracked → e.state.value v ≠ some true := by
            intro hh ht hvt
            have hvt₀ := (EncSteps.positive_of h₁ hP hg hv₁ hvt).2
            have hxname := hP.candidate_name name x hx
            rcases hg.trail.tracked ht x v hv hvt₀ with hm | hm
            · have hmulti := (hg.ok.multiNames name (hxname ▸ hm)).1
              rw [(hname (.inl hh)).2] at hmulti
              cases hmulti
            · rw [hxname] at hm
              have hnodup := (hg₁.ok.tables.trackerOk name).vars_nodup
              rw [hget, hnew rfl, List.nodup_append] at hnodup
              exact hnodup.2.2 v hm v (List.mem_singleton_self v) rfl
          have hstep : EncStep P problem A e _ :=
            anyOf_step hg₁ horigin hx hv₁ .idle (.inl ⟨rfl, hfree⟩)
          have hgrow := hstep.grows hg₁.ok.tables
          rw [hlink]
          refine ⟨h₁.trans (.single hstep), ⟨fun name' tr' htr' => ?_, fun name' ato' hato' w hw => ?_⟩,
            ?_⟩
          · exact (hamo₁ name' tr' htr').mono hgrow
          · rcases hlinked name' ato' hato' w hw with ⟨rfl, -, rfl⟩ | ⟨id, hid⟩
            · have : e.state.atLeastOneTracker.get? name' = some ato' := hato'
              rw [hl] at this
              obtain rfl := Option.some.inj this
              exact ⟨e.state.clauses.length, Encoder.emit_new e _ _ _⟩
            · exact ⟨id, getElem?_of_isPrefix hgrow.clauses hid⟩
          · show v ∈ (e.state.atMostOneTrackers.getD name {}).vars
            rw [hget]
            exact hmem

/-- Tracking a candidate does not look at the recorded ones. -/
theorem addPendingForbidClause_clearForbid (P : DependencyProvider N S) (enc : Encoder N S F)
    (target : N × VariableId) :
    enc.clearForbid.addPendingForbidClause target = (enc.addPendingForbidClause target).clearForbid := by
  obtain ⟨name, v⟩ := target
  rw [addPendingForbidClause_eq, addPendingForbidClause_eq]
  have hstate : enc.clearForbid.state = enc.state := rfl
  rw [hstate, AtMostOnceTracker.add_hom (Encoder.clearForbid : Encoder N S F → Encoder N S F)
    (fun a b bit e => addForbidClause_clearForbid P e name a b bit) fun _ => rfl]
  generalize (enc.state.atMostOneTrackers.getD name {}).add v (Encoder.addForbidClause name)
    (Encoder.allocForbidMultiple name) enc = r
  obtain ⟨isNew, t, st⟩ := r
  have hstate' : (st.clearForbid.setTracker name t).state = (st.setTracker name t).state := rfl
  cases isNew with
  | false => rfl
  | true =>
      simp only [Encoder.linkNew, hstate', if_true]
      split <;> rfl

theorem addPendingForbidClauses_eq (P : DependencyProvider N S) (enc : Encoder N S F) :
    enc.addPendingForbidClauses =
      ((enc.pendingForbidClauses.entries.flatMap fun e => e.2.map fun v => (e.1, v)).foldl
        Encoder.addPendingForbidClause enc).clearForbid :=
  List.foldl_hom (Encoder.clearForbid : Encoder N S F → Encoder N S F)
    fun e t => addPendingForbidClause_clearForbid P e t

theorem addPendingForbidClause_pending (P : DependencyProvider N S) (enc : Encoder N S F)
    (target : N × VariableId) :
    (enc.addPendingForbidClause target).pendingForbidClauses = enc.pendingForbidClauses := by
  obtain ⟨name, v⟩ := target
  have hadd : ((enc.state.atMostOneTrackers.getD name {}).add v (Encoder.addForbidClause name)
      (Encoder.allocForbidMultiple name) enc).2.2.pendingForbidClauses = enc.pendingForbidClauses := by
    refine AtMostOnceTracker.add_rule (fun e : Encoder N S F =>
      e.pendingForbidClauses = enc.pendingForbidClauses) ?_ (fun _ h => h) _ v rfl
    intro a b bit e h
    rw [Encoder.addForbidClause_eq P]
    obtain ⟨q, tr, as, flags, panicked, heq⟩ := e.emit_eq (P := P)
      (some (negative a, Encoder.helperLiteral b bit))
      (.forbidMultipleInstances a (Encoder.helperLiteral b bit) name)
      (Encoder.forbidOutcome (negative a) (Encoder.helperLiteral b bit)
        (e.state.decisionTracker.eval (negative a))
        (e.state.decisionTracker.eval (Encoder.helperLiteral b bit)))
    rw [heq]
    exact h
  rw [addPendingForbidClause_eq]
  generalize (enc.state.atMostOneTrackers.getD name {}).add v (Encoder.addForbidClause name)
    (Encoder.allocForbidMultiple name) enc = r at hadd ⊢
  obtain ⟨isNew, t, st⟩ := r
  cases isNew with
  | false => exact hadd
  | true =>
      simp only [Encoder.linkNew, if_true]
      split <;> exact hadd

/-- What is tracked stays tracked. -/
theorem SolverState.Grows.tracked {s s' : SolverState N S F} (hg : s.Grows s') {name : N}
    {v : VariableId} (h : v ∈ (s.atMostOneTrackers.getD name {}).vars) :
    v ∈ (s'.atMostOneTrackers.getD name {}).vars := by
  cases htr : s.atMostOneTrackers.get? name with
  | none => simp [IndexMap.getD, htr] at h
  | some tr =>
      obtain ⟨tr', htr', hvars, -⟩ := hg.trackers name tr htr
      simp only [IndexMap.getD, htr, htr', Option.getD_some] at h ⊢
      exact hvars.subset h

theorem trackAll_spec (hP : P.WellFormed) (hfinal : A.final) (l : List (N × VariableId))
    (hg : EncGood P problem A enc) (henc : PackagesEncoded enc.state)
    (hl : ∀ c ∈ l, TargetOk P problem A enc c.1 c.2) :
    EncSteps P problem A enc (l.foldl Encoder.addPendingForbidClause enc) ∧
      PackagesEncoded (l.foldl Encoder.addPendingForbidClause enc).state ∧
      ∀ c ∈ l, c.2 ∈ ((l.foldl Encoder.addPendingForbidClause enc).state.atMostOneTrackers.getD
        c.1 {}).vars := by
  induction l generalizing enc with
  | nil => exact ⟨.refl, henc, by simp⟩
  | cons c l ih =>
      obtain ⟨name, v⟩ := c
      obtain ⟨h₁, henc₁, hmem⟩ :=
        addPendingForbidClause_spec hP hfinal hg henc (hl (name, v) List.mem_cons_self)
      have hg₁ := EncSteps.good h₁ hP hg
      obtain ⟨h₂, henc₂, hall⟩ := ih hg₁ henc₁ fun c hc =>
        (hl c (List.mem_cons_of_mem _ hc)).steps h₁ hP hg
      refine ⟨h₁.trans h₂, henc₂, fun c hc => ?_⟩
      rcases List.mem_cons.mp hc with rfl | hc
      · exact (EncSteps.grows h₂ hP hg₁.ok).tracked hmem
      · exact hall c hc

theorem addPendingForbidClauses_spec (hP : P.WellFormed) (hfinal : A.final)
    (hg : EncGood P problem A enc) (henc : PackagesEncoded enc.state) :
    EncSteps P problem A enc enc.addPendingForbidClauses ∧
      PackagesEncoded enc.addPendingForbidClauses.state := by
  rw [addPendingForbidClauses_eq P]
  generalize htargets : (enc.pendingForbidClauses.entries.flatMap fun e => e.2.map fun v => (e.1, v)) =
    targets
  have hmem : ∀ name v, v ∈ enc.pendingForbidClauses.getD name [] → (name, v) ∈ targets := by
    intro name v hv
    obtain ⟨l, hl, hvl, -⟩ := IndexMap.mem_getD_nil hv
    rw [← htargets]
    exact List.mem_flatMap.mpr ⟨(name, l), hl, List.mem_map_of_mem hvl⟩
  obtain ⟨h₁, henc₁, hall⟩ := trackAll_spec hP hfinal targets hg henc fun c hc => by
    rw [← htargets] at hc
    obtain ⟨e, he, hc⟩ := List.mem_flatMap.mp hc
    obtain ⟨v, hv, rfl⟩ := List.mem_map.mp hc
    obtain ⟨hcand, hallowed⟩ := hg.ok.pendingForbid e he v hv
    exact ⟨hcand, hallowed⟩
  have hpending : (targets.foldl Encoder.addPendingForbidClause enc).pendingForbidClauses =
      enc.pendingForbidClauses :=
    List.foldl_rule (fun e : Encoder N S F => e.pendingForbidClauses = enc.pendingForbidClauses) _ rfl
      fun e t _ h => (addPendingForbidClause_pending P e t).trans h
  refine ⟨h₁.tail (.clearForbid _ (fun name v hv => ?_) hfinal), henc₁⟩
  rw [hpending] at hv
  exact hall (name, v) (hmem name v hv)

/-! ## The at-least-one variables -/

/-- The clause of one candidate that is tracked already. -/
theorem addAtLeastOneClause_spec (hg : EncGood P problem A enc) {name : N} {ato v : VariableId} {x : S}
    (hato : enc.state.variableMap.origins[ato]? = some (.atLeastOne name))
    (hx : x ∈ (P.candidatesOf name).candidates) (hv : enc.state.IsVar (.solvable x) v)
    (hnf : enc.state.value ato ≠ some false) :
    EncSteps P problem A enc (Encoder.addAtLeastOneClause ato enc v) ∧
      ∃ id : ClauseId, (Encoder.addAtLeastOneClause ato enc v).state.clauses[id]? =
        some (.anyOf ato v) := by
  rw [Encoder.addAtLeastOneClause_eq P]
  refine ⟨.single (anyOf_step hg hato hx hv _ ?_), enc.state.clauses.length, Encoder.emit_new enc _ _ _⟩
  by_cases hvt : enc.state.value v = some true
  · exact .inr ⟨if_pos hvt, hvt, hnf⟩
  · exact .inl ⟨if_neg hvt, fun _ _ => hvt⟩

/-- The clauses of an at-least-one variable change no table. -/
theorem linkTracked_tables (P : DependencyProvider N S) (ato : VariableId) (l : List VariableId)
    (enc : Encoder N S F) :
    (l.foldl (Encoder.addAtLeastOneClause ato) enc).state.atMostOneTrackers =
        enc.state.atMostOneTrackers ∧
      (l.foldl (Encoder.addAtLeastOneClause ato) enc).state.atLeastOneTracker =
        enc.state.atLeastOneTracker := by
  refine List.foldl_rule (fun e : Encoder N S F =>
    e.state.atMostOneTrackers = enc.state.atMostOneTrackers ∧
      e.state.atLeastOneTracker = enc.state.atLeastOneTracker) _ ⟨rfl, rfl⟩ fun e v _ h => ?_
  rw [Encoder.addAtLeastOneClause_eq P]
  obtain ⟨q, tr, as, flags, panicked, heq⟩ := e.emit_eq (P := P) (some (positive ato, negative v))
    (.anyOf ato v) (if e.state.value v = some true then .forced (positive ato) else .idle)
  rw [heq]
  exact h

theorem addAtLeastOnePackage_table (P : DependencyProvider N S) (enc : Encoder N S F) (name : N)
    (ato : VariableId) : (enc.addAtLeastOnePackage (name, ato)).state.atLeastOneTracker =
      enc.state.atLeastOneTracker.insert name ato := by
  show IndexMap.insert _ name ato = _
  rw [(linkTracked_tables P ato _ enc).2]

theorem addAtLeastOnePackage_spec (hP : P.WellFormed) (hfinal : A.final)
    (hg : EncGood P problem A enc) (henc : PackagesEncoded enc.state) {name : N} {ato : VariableId}
    (hato : enc.state.variableMap.origins[ato]? = some (.atLeastOne name))
    (hnf : enc.state.value ato ≠ some false) :
    EncSteps P problem A enc (enc.addAtLeastOnePackage (name, ato)) ∧
      PackagesEncoded (enc.addAtLeastOnePackage (name, ato)).state := by
  simp only [Encoder.addAtLeastOnePackage]
  have hok := hg.ok.tables.trackerOk name
  have hvars : ∀ e, EncSteps P problem A enc e →
      ∀ v ∈ (enc.state.atMostOneTrackers.getD name {}).vars,
        ∃ x ∈ (P.candidatesOf name).candidates, e.state.IsVar (.solvable x) v := by
    intro e he v hv
    obtain ⟨x, hx, hxv⟩ := hok.vars v hv
    exact ⟨x, hx, hxv.mono (EncSteps.grows he hP hg.ok).vars⟩
  obtain ⟨h₁, hall⟩ := EncSteps.foldl_post
    (fun v s => ∃ id : ClauseId, s.clauses[id]? = some (.anyOf ato v))
    (fun v s s' hgrow h => h.imp fun id hid => getElem?_of_isPrefix hgrow.clauses hid) hP hg
    (enc.state.atMostOneTrackers.getD name {}).vars (f := Encoder.addAtLeastOneClause ato)
    fun e v hv he => by
      obtain ⟨x, hx, hxv⟩ := hvars e he v hv
      exact addAtLeastOneClause_spec (EncSteps.good he hP hg)
        ((EncSteps.grows he hP hg.ok).vars.origin hato) hx hxv (EncSteps.not_false he hP hg hato hnf)
  have hg₁ := EncSteps.good h₁ hP hg
  have hgrow₁ := EncSteps.grows h₁ hP hg.ok
  have htables := linkTracked_tables P ato (enc.state.atMostOneTrackers.getD name {}).vars enc
  generalize (enc.state.atMostOneTrackers.getD name {}).vars.foldl
    (Encoder.addAtLeastOneClause ato) enc = e at h₁ hall hg₁ hgrow₁ htables ⊢
  have hset : EncStep P problem A e (e.setAtLeastOne name ato) :=
    .atLeastOneTracker e name ato (hgrow₁.vars.origin hato) hfinal
  refine ⟨h₁.trans (.single hset), fun name' tr htr => ?_, fun name' ato' hato' w hw => ?_⟩
  · have htr' : enc.state.atMostOneTrackers.get? name' = some tr := by
      rw [← htables.1]
      exact htr
    exact ((henc.atMostOne name' tr htr').mono hgrow₁).mono (hset.grows hg₁.ok.tables)
  · have hw' : w ∈ (enc.state.atMostOneTrackers.getD name' {}).vars := by
      rw [← htables.1]
      exact hw
    show ∃ id : ClauseId, e.state.clauses[id]? = some (.anyOf ato' w)
    by_cases hne : name = name'
    · subst hne
      have : (e.state.atLeastOneTracker.insert name ato).get? name = some ato' := hato'
      rw [IndexMap.get?_insert_self] at this
      exact Option.some.inj this ▸ hall w hw'
    · have : (e.state.atLeastOneTracker.insert name ato).get? name' = some ato' := hato'
      rw [IndexMap.get?_insert_ne _ _ hne, htables.2] at this
      obtain ⟨id, hid⟩ := henc.atLeastOne name' ato' this w hw'
      exact ⟨id, getElem?_of_isPrefix hgrow₁.clauses hid⟩

/-- Entering at-least-one variables does not look at the ones allocated. -/
theorem addAtLeastOnePackage_clear (P : DependencyProvider N S) (enc : Encoder N S F)
    (package : N × VariableId) :
    enc.clearAtLeastOne.addAtLeastOnePackage package =
      (enc.addAtLeastOnePackage package).clearAtLeastOne := by
  obtain ⟨name, ato⟩ := package
  have hfold : (enc.state.atMostOneTrackers.getD name {}).vars.foldl (Encoder.addAtLeastOneClause ato)
      enc.clearAtLeastOne = ((enc.state.atMostOneTrackers.getD name {}).vars.foldl
        (Encoder.addAtLeastOneClause ato) enc).clearAtLeastOne := by
    refine List.foldl_hom (Encoder.clearAtLeastOne : Encoder N S F → Encoder N S F) fun e v => ?_
    rw [Encoder.addAtLeastOneClause_eq P, Encoder.addAtLeastOneClause_eq P]
    exact (Encoder.independent_clearAtLeastOne (P := P)).emit e _ _ _
  exact congrArg (fun e : Encoder N S F => e.setAtLeastOne name ato) hfold

theorem addPendingAtLeastOneClauses_eq (P : DependencyProvider N S) (enc : Encoder N S F) :
    enc.addPendingAtLeastOneClauses =
      (enc.newAtLeastOnePackages.entries.foldl Encoder.addAtLeastOnePackage enc).clearAtLeastOne :=
  List.foldl_hom (Encoder.clearAtLeastOne : Encoder N S F → Encoder N S F)
    fun e t => addAtLeastOnePackage_clear P e t

/-- An at-least-one variable that is entered stays, where no other one is entered for its package. -/
theorem enterAll_keeps (P : DependencyProvider N S) {name : N} {ato : VariableId}
    (l : List (N × VariableId)) (enc : Encoder N S F)
    (h : enc.state.atLeastOneTracker.get? name = some ato) (hl : ∀ c ∈ l, c.1 = name → c.2 = ato) :
    (l.foldl Encoder.addAtLeastOnePackage enc).state.atLeastOneTracker.get? name = some ato := by
  refine List.foldl_rule (fun e : Encoder N S F => e.state.atLeastOneTracker.get? name = some ato) l h
    fun e c hc he => ?_
  obtain ⟨name', ato'⟩ := c
  rw [addAtLeastOnePackage_table P, IndexMap.get?_insert]
  by_cases hne : name' = name
  · rw [if_pos hne]
    exact congrArg some (hl _ hc hne)
  · rw [if_neg hne]
    exact he

/-- Entering a list of at-least-one variables, one for each package. -/
theorem enterAll_spec (hP : P.WellFormed) (hfinal : A.final) (l : List (N × VariableId))
    (hg : EncGood P problem A enc) (henc : PackagesEncoded enc.state)
    (hl : ∀ c ∈ l, enc.state.variableMap.origins[c.2]? = some (.atLeastOne c.1) ∧
      enc.state.value c.2 ≠ some false)
    (huniq : ∀ c ∈ l, ∀ c' ∈ l, c'.1 = c.1 → c'.2 = c.2) :
    EncSteps P problem A enc (l.foldl Encoder.addAtLeastOnePackage enc) ∧
      PackagesEncoded (l.foldl Encoder.addAtLeastOnePackage enc).state ∧
      ∀ c ∈ l, (l.foldl Encoder.addAtLeastOnePackage enc).state.atLeastOneTracker.get? c.1 =
        some c.2 := by
  induction l generalizing enc with
  | nil => exact ⟨.refl, henc, by simp⟩
  | cons c l ih =>
      obtain ⟨name, ato⟩ := c
      obtain ⟨h₁, henc₁⟩ := addAtLeastOnePackage_spec hP hfinal hg henc
        (hl _ List.mem_cons_self).1 (hl _ List.mem_cons_self).2
      have hg₁ := EncSteps.good h₁ hP hg
      have htail : ∀ c ∈ l, c ∈ (name, ato) :: l := fun c hc => List.mem_cons_of_mem _ hc
      obtain ⟨h₂, henc₂, hall⟩ := ih hg₁ henc₁
        (fun c hc => ⟨(EncSteps.grows h₁ hP hg.ok).vars.origin (hl c (htail c hc)).1,
          EncSteps.not_false h₁ hP hg (hl c (htail c hc)).1 (hl c (htail c hc)).2⟩)
        fun c hc c' hc' => huniq c (htail c hc) c' (htail c' hc')
      refine ⟨h₁.trans h₂, henc₂, fun c hc => ?_⟩
      rcases List.mem_cons.mp hc with rfl | hc
      · refine enterAll_keeps P l _ ?_ fun c' hc' => huniq _ List.mem_cons_self c' (htail c' hc')
        rw [addAtLeastOnePackage_table P, IndexMap.get?_insert_self]
      · exact hall c hc

theorem addPendingAtLeastOneClauses_spec (hP : P.WellFormed) (hfinal : A.final)
    (hg : EncGood P problem A enc) (henc : PackagesEncoded enc.state) :
    EncSteps P problem A enc enc.addPendingAtLeastOneClauses ∧
      PackagesEncoded enc.addPendingAtLeastOneClauses.state := by
  rw [addPendingAtLeastOneClauses_eq P]
  -- the table of at-least-one variables has one variable for each package
  have huniq : ∀ c ∈ enc.newAtLeastOnePackages.entries, ∀ c' ∈ enc.newAtLeastOnePackages.entries,
      c'.1 = c.1 → c'.2 = c.2 := by
    intro c hc c' hc' heq
    have h₁ := (hg.ok.tables.atLeastOne _ _).mp (hg.ok.newEntries c hc)
    have h₂ := (hg.ok.tables.atLeastOne _ _).mp (hg.ok.newEntries c' hc')
    rw [heq, h₁] at h₂
    exact (Option.some.inj h₂).symm
  obtain ⟨h₁, henc₁, hall⟩ := enterAll_spec hP hfinal _ hg henc hg.trail.entered huniq
  have hnew : (enc.newAtLeastOnePackages.entries.foldl Encoder.addAtLeastOnePackage
      enc).newAtLeastOnePackages = enc.newAtLeastOnePackages := by
    refine List.foldl_rule (fun e : Encoder N S F =>
      e.newAtLeastOnePackages = enc.newAtLeastOnePackages) _ rfl fun e c _ h => ?_
    obtain ⟨name, ato⟩ := c
    refine Eq.trans ?_ h
    refine List.foldl_rule (fun e' : Encoder N S F =>
      e'.newAtLeastOnePackages = e.newAtLeastOnePackages)
      (e.state.atMostOneTrackers.getD name {}).vars rfl fun e' v _ h' => ?_
    rw [Encoder.addAtLeastOneClause_eq P]
    obtain ⟨q, tr, as, flags, panicked, heq⟩ := e'.emit_eq (P := P) (some (positive ato, negative v))
      (.anyOf ato v) (if e'.state.value v = some true then .forced (positive ato) else .idle)
    rw [heq]
    exact h'
  refine ⟨h₁.tail (.clearAtLeastOne _ (fun name v hv => ?_) hfinal), henc₁⟩
  rw [hnew] at hv
  exact hall (name, v) (IndexMap.mem_of_get? hv)

theorem addPendingAtLeastOneClauses_pending (P : DependencyProvider N S) (enc : Encoder N S F) :
    enc.addPendingAtLeastOneClauses.pendingForbidClauses = enc.pendingForbidClauses := by
  refine List.foldl_rule (fun e : Encoder N S F => e.pendingForbidClauses = enc.pendingForbidClauses) _
    rfl fun e c _ h => ?_
  obtain ⟨name, ato⟩ := c
  refine Eq.trans ?_ h
  refine List.foldl_rule (fun e' : Encoder N S F => e'.pendingForbidClauses = e.pendingForbidClauses)
    (e.state.atMostOneTrackers.getD name {}).vars rfl fun e' v _ h' => ?_
  rw [Encoder.addAtLeastOneClause_eq P]
  obtain ⟨q, tr, as, flags, panicked, heq⟩ := e'.emit_eq (P := P) (some (positive ato, negative v))
    (.anyOf ato v) (if e'.state.value v = some true then .forced (positive ato) else .idle)
  rw [heq]
  exact h'

/-- **The end of an encoder call** completes the encodings of the packages. -/
theorem finish_spec (hP : P.WellFormed) (hfinal : A.final) (hg : EncGood P problem A enc)
    (henc : PackagesEncoded enc.state) :
    EncSteps P problem A enc enc.finish ∧ PackagesEncoded enc.finish.state := by
  obtain ⟨h₁, henc₁⟩ := addPendingForbidClauses_spec hP hfinal hg henc
  obtain ⟨h₂, henc₂⟩ := addPendingAtLeastOneClauses_spec hP hfinal (EncSteps.good h₁ hP hg) henc₁
  exact ⟨h₁.trans h₂, henc₂⟩

/-- Nothing is recorded after the end of an encoder call. -/
theorem finish_cleared (P : DependencyProvider N S) (enc : Encoder N S F) :
    enc.finish.pendingForbidClauses = {} ∧ enc.finish.newAtLeastOnePackages = {} := by
  constructor
  · rw [Encoder.finish, addPendingAtLeastOneClauses_pending P, addPendingForbidClauses_eq P]
    rfl
  · rw [Encoder.finish, addPendingAtLeastOneClauses_eq P]
    rfl

/-- Before the end of an encoder call the tables of the packages' encodings stay. -/
theorem EncStep.package_tables (h : EncStep P problem A enc enc') (hfinal : ¬ A.final) :
    enc'.state.atMostOneTrackers = enc.state.atMostOneTrackers ∧
      enc'.state.atLeastOneTracker = enc.state.atLeastOneTracker := by
  cases h with
  | complete i t _ =>
      obtain ⟨names, heq⟩ := enc.complete_eq (P := P) i t
      rw [heq]
      exact ⟨rfl, rfl⟩
  | solvable p =>
      obtain ⟨ps, tasks, -, heq⟩ := enc.queueSolvable_eq p
      rw [heq]
      exact ⟨rfl, rfl⟩
  | package name => rcases enc.queuePackage_cases name with ⟨-, heq⟩ | ⟨-, heq⟩ <;> rw [heq] <;> exact ⟨rfl, rfl⟩
  | atLeastOne name =>
      rcases enc.atLeastOneVariable_cases name with ⟨v, -, heq⟩ | ⟨-, heq⟩ <;> rw [heq] <;> exact ⟨rfl, rfl⟩
  | forbidTarget name v =>
      rcases enc.registerForbidTarget_cases name v with ⟨-, heq⟩ | ⟨-, heq⟩ | ⟨-, heq⟩ <;> rw [heq] <;>
        exact ⟨rfl, rfl⟩
  | emit watched kind outcome =>
      obtain ⟨q, t, a, flags, panicked, heq⟩ := enc.emit_eq (P := P) watched kind outcome
      rw [heq]
      exact ⟨rfl, rfl⟩
  | tracker _ _ _ _ _ _ hf => exact absurd hf hfinal
  | atLeastOneTracker _ _ _ hf => exact absurd hf hfinal
  | clearForbid _ hf => exact absurd hf hfinal
  | clearAtLeastOne _ hf => exact absurd hf hfinal
  | _ => exact ⟨rfl, rfl⟩

/-- Before the end of an encoder call the encodings of the packages stay as they are. -/
theorem EncSteps.packagesEncoded (h : EncSteps P problem A enc enc') (hP : P.WellFormed)
    (hfinal : ¬ A.final) (hg : EncGood P problem A enc) (henc : PackagesEncoded enc.state) :
    PackagesEncoded enc'.state := by
  have htables : enc'.state.atMostOneTrackers = enc.state.atMostOneTrackers ∧
      enc'.state.atLeastOneTracker = enc.state.atLeastOneTracker := by
    induction h with
    | refl => exact ⟨rfl, rfl⟩
    | tail _ hstep ih =>
        obtain ⟨h₁, h₂⟩ := hstep.package_tables hfinal
        exact ⟨h₁.trans ih.1, h₂.trans ih.2⟩
  have hgrow := EncSteps.grows h hP hg.ok
  refine ⟨fun name tr htr => (henc.atMostOne name tr (htables.1 ▸ htr)).mono hgrow, ?_⟩
  intro name v hv w hw
  obtain ⟨id, hid⟩ := henc.atLeastOne name v (htables.2 ▸ hv) w (htables.1 ▸ hw)
  exact ⟨id, getElem?_of_isPrefix hgrow.clauses hid⟩

end AtMostOne

end Resolvo
