import Resolvo.Correctness.EncoderSteps

/-!
# `Correctness.EncoderInvariant` — what every step of the encoder preserves

`EncOk` says that the clauses of the problem are justified by the provider's answers, that the tables hold
what they should, and that every variable a search could make true is known to the at-most-one encoding of
its package. An encoder between two calls is an idle one, so the same invariant describes the state of the
solver.
-/

set_option linter.unusedSectionVars false

namespace Resolvo

open Sat Relation SolverState

variable {N S F : Type} [DecidableEq N] [DecidableEq S]

section Invariant

variable (P : DependencyProvider N S) (problem : Problem S) (ordered : Prop)

/-- The invariant of a running encoder. -/
structure EncOk (enc : Encoder N S F) : Prop where
  tables : enc.state.Tables P enc.newAtLeastOnePackages
  origins : ∀ (id : ClauseId) kind, enc.state.clauses[id]? = some kind → kind ≠ .installRoot →
    (∀ k, kind ≠ .learnt k) → Origin P problem enc.state kind
  deferred : ∀ e ∈ enc.state.deferredRequirements.entries, ∀ entry ∈ e.2,
    DeferredOk P problem enc.state entry ∧ entry.condition = e.1
  newEntries : ∀ e ∈ enc.newAtLeastOnePackages.entries,
    enc.state.variableMap.origins[e.2]? = some (.atLeastOne e.1)
  tasks : ∀ t ∈ enc.pending, TaskOk P problem ordered enc t
  unique : enc.pending.Pairwise fun a b => ∀ name, a = .candidates name → b ≠ .candidates name
  multiNames : ∀ name ∈ enc.state.allowMultipleNames,
    (P.candidatesOf name).allowMultiple = true ∧ enc.Processed name
  multi : ∀ name, enc.Processed name → (P.candidatesOf name).allowMultiple = true →
    name ∈ enc.state.allowMultipleNames
  pendingForbid : ∀ e ∈ enc.pendingForbidClauses.entries, ∀ v ∈ e.2,
    (∃ x ∈ (P.candidatesOf e.1).candidates, enc.state.IsVar (.solvable x) v) ∧
    (ordered → enc.Processed e.1 ∧ (P.candidatesOf e.1).allowMultiple = false)
  trackers : ordered → ∀ name tr, enc.state.atMostOneTrackers.get? name = some tr →
    enc.Processed name ∧ (P.candidatesOf name).allowMultiple = false
  seen : ∀ v ∈ enc.forbidSeen, ∃ x, enc.state.IsVar (.solvable x) v ∧
    enc.Tracks (P.solvableName x) v
  gateClauses : ∀ r g, enc.state.requiresAuxVars.get? r = some g →
    ∃ id : ClauseId, enc.state.clauses[id]? = some (.requires g none r)
  auxClauses : ∀ vs a, enc.state.constrainsAuxVars.get? vs = some a →
    ∀ x ∈ P.nonMatchingCandidates vs, ∃ f, ∃ id : ClauseId, enc.state.IsVar (.solvable x) f ∧
      enc.state.clauses[id]? = some (.constrainsExcluded f a vs)
  regCandidates : ∀ r vars, enc.state.requirementToSortedCandidates.get? r = some vars →
    ∀ v ∈ vars.flatten, enc.Registered P v
  regDisjunctions : ∀ d ∈ enc.state.disjunctions, ∀ v, positive v ∈ d.literals → enc.Registered P v
  regLearnt : ∀ c ∈ enc.state.learntClauses, ∀ v x, positive v ∈ c →
    enc.state.IsVar (.solvable x) v → enc.Registered P v
  learntVars : ∀ c ∈ enc.state.learntClauses, ∀ l ∈ c, l.var < enc.state.variableMap.origins.length

end Invariant

section Preservation

variable {P : DependencyProvider N S} {problem : Problem S} {A : RunFacts} {enc enc' : Encoder N S F}

/-! ## The tables -/

/-- Tables over a state whose variables have grown but whose table fields are the same. -/
theorem SolverState.Tables.of_vars {s s' : SolverState N S F} {new : IndexMap N VariableId}
    (h : s.Tables P new) (hwf : s'.variableMap.WF)
    (hg : VariableMap.Grows s.variableMap s'.variableMap)
    (hgates : s'.requiresAuxVars = s.requiresAuxVars)
    (hauxs : s'.constrainsAuxVars = s.constrainsAuxVars)
    (htrackers : s'.atMostOneTrackers = s.atMostOneTrackers)
    (hone : ∀ name (v : VariableId), s'.variableMap.origins[v]? = some (VariableOrigin.atLeastOne (S := S) name) ↔
      s.variableMap.origins[v]? = some (VariableOrigin.atLeastOne (S := S) name))
    (hato : s'.atLeastOneTracker = s.atLeastOneTracker)
    (hcand : s'.requirementToSortedCandidates = s.requirementToSortedCandidates)
    (hdis : s'.disjunctions = s.disjunctions) : s'.Tables P new where
  vars := hwf
  gates := by rw [hgates]; exact fun r g hr => hg.origin (h.gates r g hr)
  auxs := by rw [hauxs]; exact fun vs a ha => hg.origin (h.auxs vs a ha)
  trackers := by rw [htrackers]; exact fun name tr htr => (h.trackers name tr htr).mono hg
  atLeastOne := by rw [hato]; exact fun name v => (hone name v).trans (h.atLeastOne name v)
  candidates := by rw [hcand]; exact fun r vars hr => (h.candidates r vars hr).mono hg
  disjunctions := by
    rw [hdis]
    intro d hd
    obtain ⟨conj, hconj, hd'⟩ := h.disjunctions d hd
    exact ⟨conj, hconj, hd'.mono hg⟩

/-- Tables over a state with the same variables and the same table fields. -/
theorem SolverState.Tables.same {s s' : SolverState N S F} {new : IndexMap N VariableId}
    (h : s.Tables P new) (hvars : s'.variableMap = s.variableMap)
    (hgates : s'.requiresAuxVars = s.requiresAuxVars)
    (hauxs : s'.constrainsAuxVars = s.constrainsAuxVars)
    (htrackers : s'.atMostOneTrackers = s.atMostOneTrackers)
    (hato : s'.atLeastOneTracker = s.atLeastOneTracker)
    (hcand : s'.requirementToSortedCandidates = s.requirementToSortedCandidates)
    (hdis : s'.disjunctions = s.disjunctions) : s'.Tables P new :=
  Tables.of_vars h (hvars ▸ h.vars) (hvars ▸ .refl _) hgates hauxs htrackers
    (fun _ _ => by rw [hvars]) hato hcand hdis

/-- Allocating a variable of an origin other than at-least-one. -/
theorem SolverState.Tables.alloc {s s' : SolverState N S F} {new : IndexMap N VariableId}
    {o : VariableOrigin N S} (h : s.Tables P new) (ho : VariableMap.IsAuxiliary o)
    (hne : ∀ name, o ≠ .atLeastOne name) (hvars : s'.variableMap = (s.variableMap.alloc o).2)
    (htrackers : s'.atMostOneTrackers = s.atMostOneTrackers)
    (hato : s'.atLeastOneTracker = s.atLeastOneTracker)
    (hcand : s'.requirementToSortedCandidates = s.requirementToSortedCandidates)
    (hdis : s'.disjunctions = s.disjunctions)
    (hgates : ∀ r g, s'.requiresAuxVars.get? r = some g → s.requiresAuxVars.get? r = some g ∨
      (g = s.variableMap.origins.length ∧ o = .requiresGate r))
    (hauxs : ∀ vs a, s'.constrainsAuxVars.get? vs = some a → s.constrainsAuxVars.get? vs = some a ∨
      (a = s.variableMap.origins.length ∧ o = .constrainsViolation vs)) : s'.Tables P new := by
  have hg : VariableMap.Grows s.variableMap s'.variableMap := hvars ▸ VariableMap.alloc_grows _ _
  have hnew : s'.variableMap.origins[s.variableMap.origins.length]? = some o := by
    rw [hvars]
    exact VariableMap.alloc_origin _ _
  refine ⟨hvars ▸ h.vars.alloc ho, ?_, ?_, ?_, ?_, ?_, ?_⟩
  · intro r g hr
    rcases hgates r g hr with hr | ⟨rfl, rfl⟩
    · exact hg.origin (h.gates r g hr)
    · exact hnew
  · intro vs a ha
    rcases hauxs vs a ha with ha | ⟨rfl, rfl⟩
    · exact hg.origin (h.auxs vs a ha)
    · exact hnew
  · rw [htrackers]
    exact fun name tr htr => (h.trackers name tr htr).mono hg
  · intro name v
    rw [hato, ← h.atLeastOne name v, hvars, VariableMap.alloc_origins]
    constructor
    · rintro (hv | ⟨-, ho'⟩)
      · exact hv
      · exact absurd ho'.symm (hne name)
    · exact .inl
  · rw [hcand]
    exact fun r vars hr => (h.candidates r vars hr).mono hg
  · rw [hdis]
    intro d hd
    obtain ⟨conj, hconj, hd'⟩ := h.disjunctions d hd
    exact ⟨conj, hconj, hd'.mono hg⟩

/-- Interning allocates a solvable's variable only. -/
theorem internSolvable_atLeastOne (m : VariableMap N S) (x : S) (name : N) (v : VariableId) :
    (m.internSolvable x).2.origins[v]? = some (VariableOrigin.atLeastOne (S := S) name) ↔
      m.origins[v]? = some (VariableOrigin.atLeastOne (S := S) name) := by
  simp only [VariableMap.internSolvable]
  split
  · exact Iff.rfl
  · show (m.alloc (.solvable x)).2.origins[v]? = _ ↔ _
    rw [VariableMap.alloc_origins]
    simp

theorem SolverState.Tables.atLeastOneVariable (hok : enc.state.Tables P enc.newAtLeastOnePackages) (name : N) :
    (enc.atLeastOneVariable name).2.state.Tables P
      (enc.atLeastOneVariable name).2.newAtLeastOnePackages := by
  rcases enc.atLeastOneVariable_cases name with ⟨v, -, h⟩ | ⟨hnone, h⟩ <;> rw [h]
  · exact hok
  · have hg := VariableMap.alloc_grows enc.state.variableMap
      (VariableOrigin.atLeastOne (S := S) name)
    refine ⟨hok.vars.alloc trivial, fun r g hr => hg.origin (hok.gates r g hr),
      fun vs a ha => hg.origin (hok.auxs vs a ha),
      fun n tr htr => (hok.trackers n tr htr).mono hg, ?_,
      fun r vars hr => (hok.candidates r vars hr).mono hg, ?_⟩
    · intro n v
      show (enc.state.variableMap.alloc _).2.origins[v]? = _ ↔ _
      rw [VariableMap.alloc_origins, hok.atLeastOne, IndexMap.get?_insert]
      obtain ⟨h₁, h₂⟩ := Option.or_eq_none_iff.mp hnone
      by_cases hn : name = n
      · subst hn
        simp [h₁, h₂, eq_comm]
      · have hn' : ¬ n = name := fun h' => hn h'.symm
        simp [hn, hn']
    · intro d hd
      obtain ⟨conj, hconj, hd'⟩ := hok.disjunctions d hd
      exact ⟨conj, hconj, hd'.mono hg⟩

theorem EncStep.tables (h : EncStep P problem A enc enc')
    (hok : enc.state.Tables P enc.newAtLeastOnePackages) :
    enc'.state.Tables P enc'.newAtLeastOnePackages := by
  cases h with
  | complete i t =>
      obtain ⟨names, h⟩ := enc.complete_eq (P := P) i t
      rw [h]
      exact Tables.same hok rfl rfl rfl rfl rfl rfl rfl
  | task t h => exact hok
  | solvable p =>
      obtain ⟨ps, ts, -, h⟩ := enc.queueSolvable_eq p
      rw [h]
      exact Tables.same hok rfl rfl rfl rfl rfl rfl rfl
  | package name =>
      rcases enc.queuePackage_cases name with ⟨-, h⟩ | ⟨-, h⟩ <;> rw [h]
      · exact hok
      · exact Tables.same hok rfl rfl rfl rfl rfl rfl rfl
  | intern x =>
      obtain ⟨hwf, hg, hx⟩ := VariableMap.internSolvable_spec hok.vars x
      exact Tables.of_vars hok hwf hg rfl rfl rfl
        (internSolvable_atLeastOne enc.state.variableMap x) rfl rfl rfl
  | alloc o haux hne =>
      exact Tables.alloc (o := o) hok haux hne rfl rfl rfl rfl rfl (fun r g hg => .inl hg)
        (fun vs a ha => .inl ha)
  | gate r g id h horigin =>
      refine ⟨hok.vars, fun r' g' hg => ?_, hok.auxs,
        fun n tr htr => (hok.trackers n tr htr).mono (.refl _),
        hok.atLeastOne, fun r vars hr => (hok.candidates r vars hr).mono (.refl _), fun d hd => ?_⟩
      · simp only [Encoder.setGate, IndexMap.get?_insert] at hg
        split at hg
        · next hr =>
            obtain rfl := Option.some.inj hg
            exact hr ▸ horigin
        · exact hok.gates r' g' hg
      · obtain ⟨conj', hconj', hdis⟩ := hok.disjunctions d hd
        exact ⟨conj', hconj', hdis.mono (.refl _)⟩
  | aux vs a h horigin =>
      refine ⟨hok.vars, hok.gates, fun vs' a' ha => ?_,
        fun n tr htr => (hok.trackers n tr htr).mono (.refl _),
        hok.atLeastOne, fun r vars hr => (hok.candidates r vars hr).mono (.refl _), fun d hd => ?_⟩
      · simp only [Encoder.setAux, IndexMap.get?_insert] at ha
        split at ha
        · next hr =>
            obtain rfl := Option.some.inj ha
            exact hr ▸ horigin
        · exact hok.auxs vs' a' ha
      · obtain ⟨conj', hconj', hdis⟩ := hok.disjunctions d hd
        exact ⟨conj', hconj', hdis.mono (.refl _)⟩
  | atLeastOne name => exact Tables.atLeastOneVariable hok name
  | forbidTarget name v x hx hv hn =>
      rcases enc.registerForbidTarget_cases name v with ⟨-, h⟩ | ⟨-, h⟩ | ⟨-, h⟩ <;> rw [h] <;>
        exact hok
  | disjunction d conj hconj h hreg =>
      refine ⟨hok.vars, hok.gates, hok.auxs, fun n tr htr => (hok.trackers n tr htr).mono (.refl _),
        hok.atLeastOne, fun r vars hr => (hok.candidates r vars hr).mono (.refl _), ?_⟩
      intro d' hd'
      rcases List.mem_append.mp hd' with hd' | hd'
      · obtain ⟨conj', hconj', hdis⟩ := hok.disjunctions d' hd'
        exact ⟨conj', hconj', hdis.mono (.refl _)⟩
      · rw [List.mem_singleton.mp hd']
        exact ⟨conj, hconj, h.mono (.refl _)⟩
  | candidates r vars h hreg =>
      refine ⟨hok.vars, hok.gates, hok.auxs, fun n tr htr => (hok.trackers n tr htr).mono (.refl _),
        hok.atLeastOne, ?_, fun d hd => ?_⟩
      · intro r' vars' hr'
        simp only [Encoder.setCandidates, IndexMap.get?_insert] at hr'
        split at hr'
        · next hr =>
            obtain rfl := Option.some.inj hr'
            exact hr ▸ h.mono (.refl _)
        · exact (hok.candidates r' vars' hr').mono (.refl _)
      · obtain ⟨conj', hconj', hdis⟩ := hok.disjunctions d hd
        exact ⟨conj', hconj', hdis.mono (.refl _)⟩
  | deferred entry h => exact Tables.same hok rfl rfl rfl rfl rfl rfl rfl
  | drain d h => exact Tables.same hok rfl rfl rfl rfl rfl rfl rfl
  | emit watched kind outcome =>
      obtain ⟨q, t, a, flags, panicked, h⟩ := enc.emit_eq (P := P) watched kind outcome
      rw [h]
      exact Tables.same hok rfl rfl rfl rfl rfl rfl rfl
  | requirer gate parent id h => exact Tables.same hok rfl rfl rfl rfl rfl rfl rfl
  | tracker name tr h hv hh =>
      refine ⟨hok.vars, hok.gates, hok.auxs, ?_, hok.atLeastOne,
        fun r vars hr => (hok.candidates r vars hr).mono (.refl _), fun d hd => ?_⟩
      · intro name' tr' htr'
        simp only [Encoder.setTracker, IndexMap.get?_insert] at htr'
        split at htr'
        · next hn =>
            obtain rfl := Option.some.inj htr'
            exact hn ▸ h.mono (.refl _)
        · exact (hok.trackers name' tr' htr').mono (.refl _)
      · obtain ⟨conj', hconj', hdis⟩ := hok.disjunctions d hd
        exact ⟨conj', hconj', hdis.mono (.refl _)⟩
  | atLeastOneTracker name v h =>
      refine ⟨hok.vars, hok.gates, hok.auxs, fun n tr htr => (hok.trackers n tr htr).mono (.refl _), ?_,
        fun r vars hr => (hok.candidates r vars hr).mono (.refl _), fun d hd => ?_⟩
      · intro name' v'
        show enc.state.variableMap.origins[v']? = _ ↔ _
        rw [hok.atLeastOne]
        simp only [Encoder.setAtLeastOne, IndexMap.get?_insert]
        split
        · next hn =>
            subst hn
            rw [(hok.atLeastOne name v).mp h]
            simp
        · exact Iff.rfl
      · obtain ⟨conj', hconj', hdis⟩ := hok.disjunctions d hd
        exact ⟨conj', hconj', hdis.mono (.refl _)⟩
  | clearForbid => exact hok
  | clearAtLeastOne h =>
      refine ⟨hok.vars, hok.gates, hok.auxs, hok.trackers, ?_, hok.candidates, hok.disjunctions⟩
      intro name v
      rw [hok.atLeastOne]
      show _ ↔ (enc.state.atLeastOneTracker.get? name).or none = some v
      rw [Option.or_none]
      cases hn : enc.newAtLeastOnePackages.get? name with
      | none => simp
      | some v' => simp [h name v' hn]

/-! ## What was processed and what is registered -/

theorem awaitsCandidates_eq_false {pending : List (Task N S)} {name : N} :
    awaitsCandidates pending name = false ↔ Task.candidates name ∉ pending := by
  simp only [awaitsCandidates, List.any_eq_false]
  constructor
  · intro h hmem
    exact h _ hmem (by simp)
  · intro h t ht
    cases t with
    | candidates n =>
        simp only [decide_eq_true_eq]
        rintro rfl
        exact h ht
    | _ => simp

theorem EncStep.processed (h : EncStep P problem A enc enc') {name : N}
    (hname : enc.Processed name) : enc'.Processed name := by
  obtain ⟨hadded, hawait⟩ := hname
  rw [awaitsCandidates_eq_false] at hawait
  cases h with
  | complete i t =>
      obtain ⟨names, h⟩ := enc.complete_eq (P := P) i t
      rw [h]
      exact ⟨hadded, awaitsCandidates_eq_false.mpr fun hm => hawait (List.mem_of_mem_eraseIdx hm)⟩
  | task t hne h =>
      refine ⟨hadded, awaitsCandidates_eq_false.mpr fun hm => ?_⟩
      rcases List.mem_append.mp hm with hm | hm
      · exact hawait hm
      · exact hne name (List.mem_singleton.mp hm).symm
  | solvable p =>
      obtain ⟨ps, ts, hts, h⟩ := enc.queueSolvable_eq p
      rw [h]
      refine ⟨hadded, awaitsCandidates_eq_false.mpr fun hm => ?_⟩
      rcases List.mem_append.mp hm with hm | hm
      · exact hawait hm
      · cases (hts _ hm).1
  | package name' =>
      rcases enc.queuePackage_cases name' with ⟨-, h⟩ | ⟨hnew, h⟩ <;> rw [h]
      · exact ⟨hadded, awaitsCandidates_eq_false.mpr hawait⟩
      · refine ⟨List.mem_append_left _ hadded, awaitsCandidates_eq_false.mpr fun hm => ?_⟩
        rcases List.mem_append.mp hm with hm | hm
        · exact hawait hm
        · obtain rfl : name = name' := by simpa using hm
          exact hnew hadded
  | atLeastOne name' =>
      rcases enc.atLeastOneVariable_cases name' with ⟨v, -, h⟩ | ⟨-, h⟩ <;> rw [h] <;>
        exact ⟨hadded, awaitsCandidates_eq_false.mpr hawait⟩
  | forbidTarget name' v =>
      rcases enc.registerForbidTarget_cases name' v with ⟨-, h⟩ | ⟨-, h⟩ | ⟨-, h⟩ <;> rw [h] <;>
        exact ⟨hadded, awaitsCandidates_eq_false.mpr hawait⟩
  | emit watched kind outcome =>
      obtain ⟨q, t, a, flags, panicked, h⟩ := enc.emit_eq (P := P) watched kind outcome
      rw [h]
      exact ⟨hadded, awaitsCandidates_eq_false.mpr hawait⟩
  | _ => exact ⟨hadded, awaitsCandidates_eq_false.mpr hawait⟩

theorem EncStep.tracks (h : EncStep P problem A enc enc') {name : N} {v : VariableId}
    (hv : enc.Tracks name v) : enc'.Tracks name v := by
  cases h with
  | complete i t =>
      obtain ⟨names, h⟩ := enc.complete_eq (P := P) i t
      rw [h]
      exact hv
  | solvable p =>
      obtain ⟨ps, ts, -, h⟩ := enc.queueSolvable_eq p
      rw [h]
      exact hv
  | package name' =>
      rcases enc.queuePackage_cases name' with ⟨-, h⟩ | ⟨-, h⟩ <;> rw [h] <;> exact hv
  | atLeastOne name' =>
      rcases enc.atLeastOneVariable_cases name' with ⟨v, -, h⟩ | ⟨-, h⟩ <;> rw [h] <;> exact hv
  | forbidTarget name' v' =>
      rcases enc.registerForbidTarget_cases name' v' with ⟨-, h⟩ | ⟨-, h⟩ | ⟨-, h⟩ <;> rw [h]
      · exact hv
      · exact hv
      · refine hv.imp_left fun hv => ?_
        rw [IndexMap.getD_insert]
        split
        · next hn => exact List.mem_append_left _ (hn ▸ hv)
        · exact hv
  | emit watched kind outcome =>
      obtain ⟨q, t, a, flags, panicked, h⟩ := enc.emit_eq (P := P) watched kind outcome
      rw [h]
      exact hv
  | tracker name' tr _ hvars =>
      refine hv.imp_right fun hv => ?_
      show v ∈ ((enc.state.atMostOneTrackers.insert name' tr).getD name {}).vars
      rw [IndexMap.getD_insert]
      split
      · next hn =>
          subst hn
          exact hvars.subset hv
      · exact hv
  | clearForbid h => exact .inr (hv.elim (h name v) id)
  | _ => exact hv

theorem EncStep.registered (h : EncStep P problem A enc enc')
    (hok : enc.state.Tables P enc.newAtLeastOnePackages) {v : VariableId}
    (hv : enc.Registered P v) : enc'.Registered P v := by
  obtain ⟨x, hx, hr⟩ := hv
  have hg := h.grows hok
  exact ⟨x, hx.mono hg.vars, hr.imp (fun hm => hg.allowMultiple hm) fun ht => h.tracks ht⟩

theorem TaskOk.mono {ordered : Prop} {task : Task N S} (h : TaskOk P problem ordered enc task)
    (hg : enc.state.Grows enc'.state) (hp : ∀ name, enc.Processed name → enc'.Processed name) :
    TaskOk P problem ordered enc' task := by
  cases task with
  | dependencies p => exact hg.solvables h
  | candidates name => exact hg.packages h
  | conditionData p r c => exact ⟨h.1.mono hg, h.2⟩
  | constraintCandidates p vs => exact Restricts.mono h hg
  | requirementCandidates p r condition =>
      obtain ⟨h₁, h₂, h₃, h₄⟩ := h
      refine ⟨h₁.mono hg, fun vs hvs => hg.packages (h₂ vs hvs), h₃,
        fun c dnf hc => ⟨(h₄ c dnf hc).1, ?_⟩⟩
      intro disjunct hd
      obtain ⟨conj, hconj, heq, hproc⟩ := (h₄ c dnf hc).2 disjunct hd
      exact ⟨conj, hconj, heq, fun hh vs hvs => hp _ (hproc hh vs hvs)⟩

/-! ## The clauses and the tasks -/

/-- The clauses after a step: the old ones, and what `emit` adds. -/
theorem EncStep.origins (h : EncStep P problem A enc enc') (hok : EncOk P problem (A.Ordered P problem) enc)
    {id : ClauseId} {kind : Clause N} (hk : enc'.state.clauses[id]? = some kind)
    (hroot : kind ≠ .installRoot) (hlearnt : ∀ k, kind ≠ .learnt k) :
    Origin P problem enc'.state kind := by
  have hg := h.grows hok.tables
  have hold : enc.state.clauses[id]? = some kind → Origin P problem enc'.state kind := fun hk =>
    (hok.origins id kind hk hroot hlearnt).mono hg
  cases h with
  | complete i t =>
      obtain ⟨names, h⟩ := enc.complete_eq (P := P) i t
      rw [h] at hk
      exact hold hk
  | solvable p =>
      obtain ⟨ps, ts, -, h⟩ := enc.queueSolvable_eq p
      rw [h] at hk
      exact hold hk
  | package name =>
      rcases enc.queuePackage_cases name with ⟨-, h⟩ | ⟨-, h⟩ <;> rw [h] at hk <;> exact hold hk
  | atLeastOne name =>
      rcases enc.atLeastOneVariable_cases name with ⟨v, -, h⟩ | ⟨-, h⟩ <;> rw [h] at hk <;>
        exact hold hk
  | forbidTarget name v =>
      rcases enc.registerForbidTarget_cases name v with ⟨-, h⟩ | ⟨-, h⟩ | ⟨-, h⟩ <;> rw [h] at hk <;>
        exact hold hk
  | emit watched kind' outcome horigin =>
      obtain ⟨q, t, a, flags, panicked, h⟩ := enc.emit_eq (P := P) watched kind' outcome
      have hk' : (enc.state.addClause watched kind').2.clauses[id]? = some kind := by
        rw [h] at hk
        exact hk
      rcases addClause_getElem? hk' with hk' | ⟨-, rfl⟩
      · exact hold hk'
      · exact horigin.mono hg
  | _ => exact hold hk

theorem EncStep.deferred_ok (h : EncStep P problem A enc enc') (hok : EncOk P problem (A.Ordered P problem) enc) :
    ∀ e ∈ enc'.state.deferredRequirements.entries, ∀ entry ∈ e.2, DeferredOk P problem enc'.state entry ∧
      entry.condition = e.1 := by
  have hg := h.grows hok.tables
  have hold : ∀ e ∈ enc.state.deferredRequirements.entries, ∀ entry ∈ e.2,
      DeferredOk P problem enc'.state entry ∧ entry.condition = e.1 := fun e he entry hentry =>
    ⟨(hok.deferred e he entry hentry).1.mono hg, (hok.deferred e he entry hentry).2⟩
  cases h with
  | complete i t =>
      obtain ⟨names, h⟩ := enc.complete_eq (P := P) i t
      rw [h] at hold ⊢
      exact hold
  | solvable p =>
      obtain ⟨ps, ts, -, h⟩ := enc.queueSolvable_eq p
      rw [h] at hold ⊢
      exact hold
  | package name =>
      rcases enc.queuePackage_cases name with ⟨-, h⟩ | ⟨-, h⟩ <;> rw [h] at hold ⊢ <;> exact hold
  | atLeastOne name =>
      rcases enc.atLeastOneVariable_cases name with ⟨v, -, h⟩ | ⟨-, h⟩ <;> rw [h] at hold ⊢ <;>
        exact hold
  | forbidTarget name v =>
      rcases enc.registerForbidTarget_cases name v with ⟨-, h⟩ | ⟨-, h⟩ | ⟨-, h⟩ <;> rw [h] at hold ⊢ <;>
        exact hold
  | emit watched kind outcome =>
      obtain ⟨q, t, a, flags, panicked, h⟩ := enc.emit_eq (P := P) watched kind outcome
      rw [h] at hold ⊢
      exact hold
  | deferred entry h =>
      intro e he entry' hentry'
      rcases IndexMap.mem_insert he with rfl | he
      · rcases List.mem_append.mp hentry' with hm | hm
        · obtain ⟨l, hl, hm', -⟩ := IndexMap.mem_getD_nil hm
          exact hold _ hl entry' hm'
        · rw [List.mem_singleton.mp hm]
          exact ⟨h.mono hg, rfl⟩
      · exact hold e he entry' hentry'
  | drain d h =>
      intro e he entry hentry
      obtain ⟨l, hl, hmem⟩ := h e he entry hentry
      exact hold _ hl entry hmem
  | _ => exact hold

theorem EncStep.newEntries_ok (h : EncStep P problem A enc enc') (hok : EncOk P problem (A.Ordered P problem) enc) :
    ∀ e ∈ enc'.newAtLeastOnePackages.entries,
      enc'.state.variableMap.origins[e.2]? = some (.atLeastOne e.1) := by
  have hg := h.grows hok.tables
  have hold : ∀ e ∈ enc.newAtLeastOnePackages.entries,
      enc'.state.variableMap.origins[e.2]? = some (.atLeastOne e.1) := fun e he =>
    hg.vars.origin (hok.newEntries e he)
  cases h with
  | complete i t =>
      obtain ⟨names, h⟩ := enc.complete_eq (P := P) i t
      rw [h] at hold ⊢
      exact hold
  | solvable p =>
      obtain ⟨ps, ts, -, h⟩ := enc.queueSolvable_eq p
      rw [h] at hold ⊢
      exact hold
  | package name =>
      rcases enc.queuePackage_cases name with ⟨-, h⟩ | ⟨-, h⟩ <;> rw [h] at hold ⊢ <;> exact hold
  | atLeastOne name =>
      rcases enc.atLeastOneVariable_cases name with ⟨v, -, h⟩ | ⟨-, h⟩ <;> rw [h] at hold ⊢
      · exact hold
      · intro e he
        rcases IndexMap.mem_insert he with rfl | he
        · exact VariableMap.alloc_origin _ _
        · exact hold e he
  | forbidTarget name v =>
      rcases enc.registerForbidTarget_cases name v with ⟨-, h⟩ | ⟨-, h⟩ | ⟨-, h⟩ <;>
        rw [h] at hold ⊢ <;> exact hold
  | emit watched kind outcome =>
      obtain ⟨q, t, a, flags, panicked, h⟩ := enc.emit_eq (P := P) watched kind outcome
      rw [h] at hold ⊢
      exact hold
  | clearAtLeastOne h => intro e he; cases he
  | _ => exact hold

/-- What a step does to the queue: it appends, or it removes the task it completes. -/
theorem EncStep.pending_cases (h : EncStep P problem A enc enc') :
    (∃ ts, enc'.pending = enc.pending ++ ts ∧ (∀ t ∈ ts, TaskOk P problem (A.Ordered P problem) enc' t) ∧
      ∀ name, .candidates name ∈ ts → ts = [.candidates name] ∧
        name ∉ enc.state.clausesAddedForPackage) ∨
    ∃ i, enc'.pending = enc.pending.eraseIdx i := by
  have hnil : ∀ e : Encoder N S F, ∃ ts, e.pending = e.pending ++ ts ∧
      (∀ t ∈ ts, TaskOk P problem (A.Ordered P problem) e t) ∧ ∀ name, .candidates name ∈ ts →
        ts = [.candidates name] ∧ name ∉ enc.state.clausesAddedForPackage :=
    fun e => ⟨[], by simp, by simp, by simp⟩
  cases h with
  | complete i t =>
      obtain ⟨names, h⟩ := enc.complete_eq (P := P) i t
      rw [h]
      exact .inr ⟨i, rfl⟩
  | task t hne h =>
      refine .inl ⟨[t], rfl, fun t' ht' => ?_, fun name hm => ?_⟩
      · rw [List.mem_singleton.mp ht']
        refine h.mono (.refl _) fun name hp => ⟨hp.1, ?_⟩
        refine awaitsCandidates_eq_false.mpr fun hm => ?_
        rcases List.mem_append.mp hm with hm | hm
        · exact awaitsCandidates_eq_false.mp hp.2 hm
        · exact hne name (List.mem_singleton.mp hm).symm
      · exact absurd (List.mem_singleton.mp hm).symm (hne name)
  | solvable p =>
      obtain ⟨ps, ts, hts, h⟩ := enc.queueSolvable_eq p
      rw [h]
      refine .inl ⟨ts, rfl, fun t ht => ?_, fun name hm => ?_⟩
      · rw [(hts t ht).1]
        exact List.mem_append_right _ (hts t ht).2
      · cases (hts _ hm).1
  | package name =>
      rcases enc.queuePackage_cases name with ⟨-, h⟩ | ⟨hnew, h⟩ <;> rw [h]
      · exact .inl (hnil enc)
      · refine .inl ⟨[.candidates name], rfl, fun t ht => ?_, fun name' hm => ?_⟩
        · rw [List.mem_singleton.mp ht]
          exact List.mem_append_right _ List.mem_cons_self
        · obtain rfl : name' = name := by simpa using hm
          exact ⟨rfl, hnew⟩
  | atLeastOne name =>
      rcases enc.atLeastOneVariable_cases name with ⟨v, -, h⟩ | ⟨-, h⟩ <;> rw [h]
      · exact .inl (hnil enc)
      · exact .inl ⟨[], (List.append_nil _).symm, by simp, by simp⟩
  | forbidTarget name v =>
      rcases enc.registerForbidTarget_cases name v with ⟨-, h⟩ | ⟨-, h⟩ | ⟨-, h⟩ <;> rw [h] <;>
        exact .inl ⟨[], (List.append_nil _).symm, by simp, by simp⟩
  | emit watched kind outcome =>
      obtain ⟨q, t, a, flags, panicked, h⟩ := enc.emit_eq (P := P) watched kind outcome
      rw [h]
      exact .inl ⟨[], (List.append_nil _).symm, by simp, by simp⟩
  | _ => exact .inl ⟨[], (List.append_nil _).symm, by simp, by simp⟩

theorem EncStep.tasks_ok (h : EncStep P problem A enc enc') (hok : EncOk P problem (A.Ordered P problem) enc) :
    ∀ t ∈ enc'.pending, TaskOk P problem (A.Ordered P problem) enc' t := by
  have hold : ∀ t ∈ enc.pending, TaskOk P problem (A.Ordered P problem) enc' t := fun t ht =>
    (hok.tasks t ht).mono (h.grows hok.tables) fun _ hp => h.processed hp
  intro t ht
  rcases h.pending_cases with ⟨ts, hts, hnew, -⟩ | ⟨i, hi⟩
  · rw [hts] at ht
    exact (List.mem_append.mp ht).elim (hold t) (hnew t)
  · rw [hi] at ht
    exact hold t (List.mem_of_mem_eraseIdx ht)

theorem EncStep.unique (h : EncStep P problem A enc enc') (hok : EncOk P problem (A.Ordered P problem) enc) :
    enc'.pending.Pairwise fun a b => ∀ name, a = .candidates name → b ≠ .candidates name := by
  rcases h.pending_cases with ⟨ts, hts, -, hcand⟩ | ⟨i, hi⟩
  · rw [hts]
    refine List.pairwise_append.mpr ⟨hok.unique, ?_, ?_⟩
    · refine List.pairwise_iff_forall_sublist.mpr fun {a b} hab name ha hb => ?_
      have hmem : Task.candidates name ∈ ts := hab.subset (by rw [ha]; exact List.mem_cons_self)
      have hlen := hab.length_le
      rw [(hcand name hmem).1] at hlen
      simp at hlen
    · rintro a ha b hb name rfl rfl
      exact (hcand name hb).2 (hok.tasks _ ha)
  · rw [hi]
    exact hok.unique.sublist (List.eraseIdx_sublist _ _)

/-! ## Packages that allow multiples, and the at-most-one encoding -/

/-- The task of a package leaves the queue for good. -/
theorem EncOk.notMem_eraseIdx {ordered : Prop} (hok : EncOk P problem ordered enc) {i : Nat} {name : N}
    (hi : enc.pending[i]? = some (.candidates name)) :
    Task.candidates name ∉ enc.pending.eraseIdx i := by
  intro hm
  obtain ⟨j, hji, hj⟩ := List.mem_eraseIdx_iff_getElem?.mp hm
  obtain ⟨hi', hie⟩ := List.getElem?_eq_some_iff.mp hi
  obtain ⟨hj', hje⟩ := List.getElem?_eq_some_iff.mp hj
  have hpair := List.pairwise_iff_getElem.mp hok.unique
  rcases Nat.lt_or_gt_of_ne hji with hlt | hlt
  · exact hpair j i hj' hi' hlt name hje hie
  · exact hpair i j hi' hj' hlt name hie hje

/-- The list of packages that allow multiples grows when such a package is picked. -/
theorem EncStep.allowMultiple_cases (h : EncStep P problem A enc enc') :
    enc'.state.allowMultipleNames = enc.state.allowMultipleNames ∨
    ∃ i name, enc.pending[i]? = some (.candidates name) ∧ enc'.pending = enc.pending.eraseIdx i ∧
      enc'.state.clausesAddedForPackage = enc.state.clausesAddedForPackage ∧
      (P.candidatesOf name).allowMultiple = true ∧
      enc'.state.allowMultipleNames = enc.state.allowMultipleNames ++ [name] := by
  cases h with
  | complete i t hi =>
      cases t with
      | candidates name =>
          by_cases hm : (P.candidatesOf name).allowMultiple = true
          · refine .inr ⟨i, name, hi, ?_, ?_, hm, ?_⟩ <;>
              simp [Encoder.complete, hm, Encoder.addAllowMultiple]
          · simp [Encoder.complete, hm]
      | _ => exact .inl rfl
  | solvable p =>
      obtain ⟨ps, ts, -, h⟩ := enc.queueSolvable_eq p
      rw [h]
      exact .inl rfl
  | package name =>
      rcases enc.queuePackage_cases name with ⟨-, h⟩ | ⟨-, h⟩ <;> rw [h] <;> exact .inl rfl
  | atLeastOne name =>
      rcases enc.atLeastOneVariable_cases name with ⟨v, -, h⟩ | ⟨-, h⟩ <;> rw [h] <;> exact .inl rfl
  | forbidTarget name v =>
      rcases enc.registerForbidTarget_cases name v with ⟨-, h⟩ | ⟨-, h⟩ | ⟨-, h⟩ <;> rw [h] <;>
        exact .inl rfl
  | emit watched kind outcome =>
      obtain ⟨q, t, a, flags, panicked, h⟩ := enc.emit_eq (P := P) watched kind outcome
      rw [h]
      exact .inl rfl
  | _ => exact .inl rfl

theorem EncStep.multiNames (h : EncStep P problem A enc enc') (hok : EncOk P problem (A.Ordered P problem) enc) :
    ∀ name ∈ enc'.state.allowMultipleNames,
      (P.candidatesOf name).allowMultiple = true ∧ enc'.Processed name := by
  intro name hname
  have hold : name ∈ enc.state.allowMultipleNames →
      (P.candidatesOf name).allowMultiple = true ∧ enc'.Processed name := fun hm =>
    ⟨(hok.multiNames name hm).1, h.processed (hok.multiNames name hm).2⟩
  rcases h.allowMultiple_cases with he | ⟨i, name', hi, hpend, hpack, hmulti, he⟩
  · exact hold (he ▸ hname)
  · rw [he] at hname
    rcases List.mem_append.mp hname with hm | hm
    · exact hold hm
    · obtain rfl : name = name' := by simpa using hm
      refine ⟨hmulti, ?_, awaitsCandidates_eq_false.mpr ?_⟩
      · rw [hpack]
        exact hok.tasks _ (List.mem_of_getElem? hi)
      · rw [hpend]
        exact hok.notMem_eraseIdx hi

/-- A package becomes processed when its task is picked. -/
theorem EncStep.processed_inv (h : EncStep P problem A enc enc') {name : N}
    (hp : enc'.Processed name) : enc.Processed name ∨
      ((P.candidatesOf name).allowMultiple = true → name ∈ enc'.state.allowMultipleNames) := by
  obtain ⟨hadded, hawait⟩ := hp
  rw [awaitsCandidates_eq_false] at hawait
  have hold : name ∈ enc.state.clausesAddedForPackage → enc.pending ⊆ enc'.pending →
      enc.Processed name := fun ha hs =>
    ⟨ha, awaitsCandidates_eq_false.mpr fun hm => hawait (hs hm)⟩
  cases h with
  | complete i t hi =>
      by_cases hm : Task.candidates name ∈ enc.pending
      · refine .inr fun hmulti => ?_
        obtain ⟨j, hj⟩ := List.mem_iff_getElem?.mp hm
        obtain ⟨names, h⟩ := enc.complete_eq (P := P) i t
        rw [h] at hawait
        by_cases hji : j = i
        · subst hji
          obtain rfl := Option.some.inj (hi.symm.trans hj)
          simp [Encoder.complete, hmulti, Encoder.addAllowMultiple]
        · exact absurd (List.mem_eraseIdx_iff_getElem?.mpr ⟨j, hji, hj⟩) hawait
      · obtain ⟨names, h⟩ := enc.complete_eq (P := P) i t
        rw [h] at hadded
        exact .inl ⟨hadded, awaitsCandidates_eq_false.mpr hm⟩
  | solvable p =>
      obtain ⟨ps, ts, -, h⟩ := enc.queueSolvable_eq p
      rw [h] at hadded hold
      exact .inl (hold hadded fun _ => List.mem_append_left _)
  | package name' =>
      rcases enc.queuePackage_cases name' with ⟨-, h⟩ | ⟨-, h⟩ <;> rw [h] at hadded hawait hold
      · exact .inl (hold hadded fun _ hm => hm)
      · rcases List.mem_append.mp hadded with ha | ha
        · exact .inl (hold ha fun _ => List.mem_append_left _)
        · obtain rfl : name = name' := by simpa using ha
          exact absurd (List.mem_append_right _ List.mem_cons_self) hawait
  | atLeastOne name' =>
      rcases enc.atLeastOneVariable_cases name' with ⟨v, -, h⟩ | ⟨-, h⟩ <;> rw [h] at hadded hold <;>
        exact .inl (hold hadded fun _ hm => hm)
  | forbidTarget name' v =>
      rcases enc.registerForbidTarget_cases name' v with ⟨-, h⟩ | ⟨-, h⟩ | ⟨-, h⟩ <;>
        rw [h] at hadded hold <;> exact .inl (hold hadded fun _ hm => hm)
  | emit watched kind outcome =>
      obtain ⟨q, t, a, flags, panicked, h⟩ := enc.emit_eq (P := P) watched kind outcome
      rw [h] at hadded hold
      exact .inl (hold hadded fun _ hm => hm)
  | task t => exact .inl (hold hadded fun _ => List.mem_append_left _)
  | _ => exact .inl (hold hadded fun _ hm => hm)

theorem EncStep.multi (h : EncStep P problem A enc enc') (hok : EncOk P problem (A.Ordered P problem) enc) :
    ∀ name, enc'.Processed name → (P.candidatesOf name).allowMultiple = true →
      name ∈ enc'.state.allowMultipleNames := by
  intro name hp hm
  rcases h.processed_inv hp with hp | hnew
  · exact (h.grows hok.tables).allowMultiple (hok.multi name hp hm)
  · exact hnew hm

theorem EncStep.pendingForbid_ok (h : EncStep P problem A enc enc')
    (hok : EncOk P problem (A.Ordered P problem) enc) :
    ∀ e ∈ enc'.pendingForbidClauses.entries, ∀ v ∈ e.2,
      (∃ x ∈ (P.candidatesOf e.1).candidates, enc'.state.IsVar (.solvable x) v) ∧
      (A.Ordered P problem → enc'.Processed e.1 ∧ (P.candidatesOf e.1).allowMultiple = false) := by
  have hg := h.grows hok.tables
  have hold : ∀ e ∈ enc.pendingForbidClauses.entries, ∀ v ∈ e.2,
      (∃ x ∈ (P.candidatesOf e.1).candidates, enc'.state.IsVar (.solvable x) v) ∧
      (A.Ordered P problem → enc'.Processed e.1 ∧ (P.candidatesOf e.1).allowMultiple = false) := by
    intro e he v hv
    obtain ⟨⟨x, hx, hxv⟩, hh⟩ := hok.pendingForbid e he v hv
    exact ⟨⟨x, hx, hxv.mono hg.vars⟩, fun hhard => ⟨h.processed (hh hhard).1, (hh hhard).2⟩⟩
  cases h with
  | complete i t =>
      obtain ⟨names, h⟩ := enc.complete_eq (P := P) i t
      rw [h] at hold ⊢
      exact hold
  | solvable p =>
      obtain ⟨ps, ts, -, h⟩ := enc.queueSolvable_eq p
      rw [h] at hold ⊢
      exact hold
  | package name =>
      rcases enc.queuePackage_cases name with ⟨-, h⟩ | ⟨-, h⟩ <;> rw [h] at hold ⊢ <;> exact hold
  | atLeastOne name =>
      rcases enc.atLeastOneVariable_cases name with ⟨v, -, h⟩ | ⟨-, h⟩ <;> rw [h] at hold ⊢ <;>
        exact hold
  | forbidTarget name v x hx hv hn =>
      rcases enc.registerForbidTarget_cases name v with ⟨-, h⟩ | ⟨-, h⟩ | ⟨hmulti, h⟩ <;>
        rw [h] at hold ⊢
      · exact hold
      · exact hold
      · intro e he v' hv'
        rcases IndexMap.mem_insert he with rfl | he
        · rcases List.mem_append.mp hv' with hm | hm
          · obtain ⟨l, hl, hm', -⟩ := IndexMap.mem_getD_nil hm
            exact hold _ hl v' hm'
          · rw [List.mem_singleton.mp hm]
            refine ⟨⟨x, hx, hv⟩, fun hh => ⟨hn hh, ?_⟩⟩
            -- a processed package that allows multiples is in the list
            by_contra hne
            exact hmulti (hok.multi name (hn hh) (by simpa using hne))
        · exact hold e he v' hv'
  | emit watched kind outcome =>
      obtain ⟨q, t, a, flags, panicked, h⟩ := enc.emit_eq (P := P) watched kind outcome
      rw [h] at hold ⊢
      exact hold
  | clearForbid => intro e he; cases he
  | _ => exact hold

theorem EncStep.trackers_ok (h : EncStep P problem A enc enc') (hok : EncOk P problem (A.Ordered P problem) enc)
    (hh : A.Ordered P problem) : ∀ name tr, enc'.state.atMostOneTrackers.get? name = some tr →
      enc'.Processed name ∧ (P.candidatesOf name).allowMultiple = false := by
  have hold : ∀ name tr, enc.state.atMostOneTrackers.get? name = some tr →
      enc'.Processed name ∧ (P.candidatesOf name).allowMultiple = false := fun name tr htr =>
    ⟨h.processed (hok.trackers hh name tr htr).1, (hok.trackers hh name tr htr).2⟩
  cases h with
  | complete i t =>
      obtain ⟨names, h⟩ := enc.complete_eq (P := P) i t
      rw [h] at hold ⊢
      exact hold
  | solvable p =>
      obtain ⟨ps, ts, -, h⟩ := enc.queueSolvable_eq p
      rw [h] at hold ⊢
      exact hold
  | package name =>
      rcases enc.queuePackage_cases name with ⟨-, h⟩ | ⟨-, h⟩ <;> rw [h] at hold ⊢ <;> exact hold
  | atLeastOne name =>
      rcases enc.atLeastOneVariable_cases name with ⟨v, -, h⟩ | ⟨-, h⟩ <;> rw [h] at hold ⊢ <;>
        exact hold
  | forbidTarget name v =>
      rcases enc.registerForbidTarget_cases name v with ⟨-, h⟩ | ⟨-, h⟩ | ⟨-, h⟩ <;>
        rw [h] at hold ⊢ <;> exact hold
  | emit watched kind outcome =>
      obtain ⟨q, t, a, flags, panicked, h⟩ := enc.emit_eq (P := P) watched kind outcome
      rw [h] at hold ⊢
      exact hold
  | tracker name tr htr hv hhelp hname =>
      intro name' tr' htr'
      simp only [Encoder.setTracker, IndexMap.get?_insert] at htr'
      split at htr'
      · next hn => exact hn ▸ hname hh
      · exact hold name' tr' htr'
  | _ => exact hold

/-! ## Gates and violation variables -/

/-- The gates after a step: the old ones, and the one that is entered. -/
theorem EncStep.gateClauses (h : EncStep P problem A enc enc') (hok : EncOk P problem (A.Ordered P problem) enc) :
    ∀ r g, enc'.state.requiresAuxVars.get? r = some g →
      ∃ id : ClauseId, enc'.state.clauses[id]? = some (.requires g none r) := by
  have hg := h.grows hok.tables
  have hold : ∀ r g, enc.state.requiresAuxVars.get? r = some g →
      ∃ id : ClauseId, enc'.state.clauses[id]? = some (.requires g none r) := by
    intro r g hr
    obtain ⟨id, hid⟩ := hok.gateClauses r g hr
    exact ⟨id, getElem?_of_isPrefix hg.clauses hid⟩
  cases h with
  | complete i t =>
      obtain ⟨names, h⟩ := enc.complete_eq (P := P) i t
      rw [h] at hold ⊢
      exact hold
  | solvable p =>
      obtain ⟨ps, ts, -, h⟩ := enc.queueSolvable_eq p
      rw [h] at hold ⊢
      exact hold
  | package name =>
      rcases enc.queuePackage_cases name with ⟨-, h⟩ | ⟨-, h⟩ <;> rw [h] at hold ⊢ <;> exact hold
  | atLeastOne name =>
      rcases enc.atLeastOneVariable_cases name with ⟨v, -, h⟩ | ⟨-, h⟩ <;> rw [h] at hold ⊢ <;>
        exact hold
  | forbidTarget name v =>
      rcases enc.registerForbidTarget_cases name v with ⟨-, h⟩ | ⟨-, h⟩ | ⟨-, h⟩ <;>
        rw [h] at hold ⊢ <;> exact hold
  | emit watched kind outcome =>
      obtain ⟨q, t, a, flags, panicked, h⟩ := enc.emit_eq (P := P) watched kind outcome
      rw [h] at hold ⊢
      exact hold
  | gate r g id h horigin hclause =>
      intro r' g' hr'
      simp only [Encoder.setGate, IndexMap.get?_insert] at hr'
      split at hr'
      · next hr =>
          obtain rfl := Option.some.inj hr'
          exact ⟨id, hr ▸ hclause⟩
      · exact hold r' g' hr'
  | _ => exact hold

theorem EncStep.auxClauses (h : EncStep P problem A enc enc') (hok : EncOk P problem (A.Ordered P problem) enc) :
    ∀ vs a, enc'.state.constrainsAuxVars.get? vs = some a →
      ∀ x ∈ P.nonMatchingCandidates vs, ∃ f, ∃ id : ClauseId, enc'.state.IsVar (.solvable x) f ∧
        enc'.state.clauses[id]? = some (.constrainsExcluded f a vs) := by
  have hg := h.grows hok.tables
  have hold : ∀ vs a, enc.state.constrainsAuxVars.get? vs = some a →
      ∀ x ∈ P.nonMatchingCandidates vs, ∃ f, ∃ id : ClauseId, enc'.state.IsVar (.solvable x) f ∧
        enc'.state.clauses[id]? = some (.constrainsExcluded f a vs) := by
    intro vs a ha x hx
    obtain ⟨f, id, hf, hid⟩ := hok.auxClauses vs a ha x hx
    exact ⟨f, id, hf.mono hg.vars, getElem?_of_isPrefix hg.clauses hid⟩
  cases h with
  | complete i t =>
      obtain ⟨names, h⟩ := enc.complete_eq (P := P) i t
      rw [h] at hold ⊢
      exact hold
  | solvable p =>
      obtain ⟨ps, ts, -, h⟩ := enc.queueSolvable_eq p
      rw [h] at hold ⊢
      exact hold
  | package name =>
      rcases enc.queuePackage_cases name with ⟨-, h⟩ | ⟨-, h⟩ <;> rw [h] at hold ⊢ <;> exact hold
  | atLeastOne name =>
      rcases enc.atLeastOneVariable_cases name with ⟨v, -, h⟩ | ⟨-, h⟩ <;> rw [h] at hold ⊢ <;>
        exact hold
  | forbidTarget name v =>
      rcases enc.registerForbidTarget_cases name v with ⟨-, h⟩ | ⟨-, h⟩ | ⟨-, h⟩ <;>
        rw [h] at hold ⊢ <;> exact hold
  | emit watched kind outcome =>
      obtain ⟨q, t, a, flags, panicked, h⟩ := enc.emit_eq (P := P) watched kind outcome
      rw [h] at hold ⊢
      exact hold
  | aux vs a h horigin hclauses =>
      intro vs' a' hvs' x hx
      simp only [Encoder.setAux, IndexMap.get?_insert] at hvs'
      split at hvs'
      · next hr =>
          obtain rfl := Option.some.inj hvs'
          subst hr
          exact hclauses x hx
      · exact hold vs' a' hvs' x hx
  | _ => exact hold

/-! ## Registration -/

theorem EncStep.seen_ok (h : EncStep P problem A enc enc') (hP : P.WellFormed)
    (hok : EncOk P problem (A.Ordered P problem) enc) :
    ∀ v ∈ enc'.forbidSeen, ∃ x, enc'.state.IsVar (.solvable x) v ∧
      enc'.Tracks (P.solvableName x) v := by
  have hg := h.grows hok.tables
  have hold : ∀ v ∈ enc.forbidSeen, ∃ x, enc'.state.IsVar (.solvable x) v ∧
      enc'.Tracks (P.solvableName x) v := by
    intro v hv
    obtain ⟨x, hx, ht⟩ := hok.seen v hv
    exact ⟨x, hx.mono hg.vars, h.tracks ht⟩
  cases h with
  | complete i t =>
      obtain ⟨names, h⟩ := enc.complete_eq (P := P) i t
      rw [h] at hold ⊢
      exact hold
  | solvable p =>
      obtain ⟨ps, ts, -, h⟩ := enc.queueSolvable_eq p
      rw [h] at hold ⊢
      exact hold
  | package name =>
      rcases enc.queuePackage_cases name with ⟨-, h⟩ | ⟨-, h⟩ <;> rw [h] at hold ⊢ <;> exact hold
  | atLeastOne name =>
      rcases enc.atLeastOneVariable_cases name with ⟨v, -, h⟩ | ⟨-, h⟩ <;> rw [h] at hold ⊢ <;>
        exact hold
  | forbidTarget name v x hx hv hn =>
      rcases enc.registerForbidTarget_cases name v with ⟨-, h⟩ | ⟨-, h⟩ | ⟨-, h⟩ <;>
        rw [h] at hold ⊢
      · exact hold
      · exact hold
      · intro v' hv'
        rcases List.mem_append.mp hv' with hm | hm
        · exact hold v' hm
        · obtain rfl : v' = v := by simpa using hm
          refine ⟨x, hv, .inl ?_⟩
          rw [hP.candidate_name name x hx, IndexMap.getD_insert, if_pos rfl]
          exact List.mem_append_right _ List.mem_cons_self
  | emit watched kind outcome =>
      obtain ⟨q, t, a, flags, panicked, h⟩ := enc.emit_eq (P := P) watched kind outcome
      rw [h] at hold ⊢
      exact hold
  | _ => exact hold

theorem EncStep.regCandidates_ok (h : EncStep P problem A enc enc')
    (hok : EncOk P problem (A.Ordered P problem) enc) :
    ∀ r vars, enc'.state.requirementToSortedCandidates.get? r = some vars →
      ∀ v ∈ vars.flatten, enc'.Registered P v := by
  have hreg := fun v (hv : enc.Registered P v) => h.registered hok.tables hv
  have hold : ∀ r vars, enc.state.requirementToSortedCandidates.get? r = some vars →
      ∀ v ∈ vars.flatten, enc'.Registered P v := fun r vars hr v hv =>
    hreg v (hok.regCandidates r vars hr v hv)
  cases h with
  | complete i t =>
      obtain ⟨names, h⟩ := enc.complete_eq (P := P) i t
      rw [h] at hold ⊢
      exact hold
  | solvable p =>
      obtain ⟨ps, ts, -, h⟩ := enc.queueSolvable_eq p
      rw [h] at hold ⊢
      exact hold
  | package name =>
      rcases enc.queuePackage_cases name with ⟨-, h⟩ | ⟨-, h⟩ <;> rw [h] at hold ⊢ <;> exact hold
  | atLeastOne name =>
      rcases enc.atLeastOneVariable_cases name with ⟨v, -, h⟩ | ⟨-, h⟩ <;> rw [h] at hold ⊢ <;>
        exact hold
  | forbidTarget name v =>
      rcases enc.registerForbidTarget_cases name v with ⟨-, h⟩ | ⟨-, h⟩ | ⟨-, h⟩ <;>
        rw [h] at hold ⊢ <;> exact hold
  | emit watched kind outcome =>
      obtain ⟨q, t, a, flags, panicked, h⟩ := enc.emit_eq (P := P) watched kind outcome
      rw [h] at hold ⊢
      exact hold
  | candidates r vars h hr =>
      intro r' vars' hr' v hv
      simp only [Encoder.setCandidates, IndexMap.get?_insert] at hr'
      split at hr'
      · obtain rfl := Option.some.inj hr'
        exact hreg v (hr v hv)
      · exact hold r' vars' hr' v hv
  | _ => exact hold

theorem EncStep.regDisjunctions_ok (h : EncStep P problem A enc enc')
    (hok : EncOk P problem (A.Ordered P problem) enc) :
    ∀ d ∈ enc'.state.disjunctions, ∀ v, positive v ∈ d.literals → enc'.Registered P v := by
  have hreg := fun v (hv : enc.Registered P v) => h.registered hok.tables hv
  have hold : ∀ d ∈ enc.state.disjunctions, ∀ v, positive v ∈ d.literals → enc'.Registered P v :=
    fun d hd v hv => hreg v (hok.regDisjunctions d hd v hv)
  cases h with
  | complete i t =>
      obtain ⟨names, h⟩ := enc.complete_eq (P := P) i t
      rw [h] at hold ⊢
      exact hold
  | solvable p =>
      obtain ⟨ps, ts, -, h⟩ := enc.queueSolvable_eq p
      rw [h] at hold ⊢
      exact hold
  | package name =>
      rcases enc.queuePackage_cases name with ⟨-, h⟩ | ⟨-, h⟩ <;> rw [h] at hold ⊢ <;> exact hold
  | atLeastOne name =>
      rcases enc.atLeastOneVariable_cases name with ⟨v, -, h⟩ | ⟨-, h⟩ <;> rw [h] at hold ⊢ <;>
        exact hold
  | forbidTarget name v =>
      rcases enc.registerForbidTarget_cases name v with ⟨-, h⟩ | ⟨-, h⟩ | ⟨-, h⟩ <;>
        rw [h] at hold ⊢ <;> exact hold
  | emit watched kind outcome =>
      obtain ⟨q, t, a, flags, panicked, h⟩ := enc.emit_eq (P := P) watched kind outcome
      rw [h] at hold ⊢
      exact hold
  | disjunction d conj hconj h hr =>
      intro d' hd' v hv
      rcases List.mem_append.mp hd' with hd' | hd'
      · exact hold d' hd' v hv
      · rw [List.mem_singleton.mp hd'] at hv
        exact hreg v (hr v hv)
  | _ => exact hold

/-- The encoder learns nothing. -/
theorem EncStep.learntClauses (h : EncStep P problem A enc enc') :
    enc'.state.learntClauses = enc.state.learntClauses := by
  cases h with
  | complete i t =>
      obtain ⟨names, h⟩ := enc.complete_eq (P := P) i t
      rw [h]
  | solvable p =>
      obtain ⟨ps, ts, -, h⟩ := enc.queueSolvable_eq p
      rw [h]
  | package name => rcases enc.queuePackage_cases name with ⟨-, h⟩ | ⟨-, h⟩ <;> rw [h]
  | atLeastOne name =>
      rcases enc.atLeastOneVariable_cases name with ⟨v, -, h⟩ | ⟨-, h⟩ <;> rw [h]
  | forbidTarget name v =>
      rcases enc.registerForbidTarget_cases name v with ⟨-, h⟩ | ⟨-, h⟩ | ⟨-, h⟩ <;> rw [h]
  | emit watched kind outcome =>
      obtain ⟨q, t, a, flags, panicked, h⟩ := enc.emit_eq (P := P) watched kind outcome
      rw [h]
      rfl
  | _ => rfl

/-- A variable that is a solvable's now and was handed out before was the solvable's before. -/
theorem EncStep.regLearnt_ok (h : EncStep P problem A enc enc')
    (hok : EncOk P problem (A.Ordered P problem) enc) : ∀ c ∈ enc'.state.learntClauses, ∀ v x, positive v ∈ c → enc'.state.IsVar (.solvable x) v →
      enc'.Registered P v := by
  intro c hc v x hv hx
  rw [h.learntClauses] at hc
  have hg := h.grows hok.tables
  have hlt : v < enc.state.variableMap.origins.length := hok.learntVars c hc _ hv
  refine h.registered hok.tables (hok.regLearnt c hc v x hv ?_)
  have hnew := ((h.tables hok.tables).vars.lookup_iff x v).mp hx
  refine (hok.tables.vars.lookup_iff x v).mpr ?_
  rw [List.getElem?_eq_getElem hlt]
  have := hg.vars.origin (List.getElem?_eq_getElem hlt)
  rw [this] at hnew
  exact hnew

/-! ## Steps and runs -/

/-- **Every step of the encoder keeps the encoder's invariant.** -/
theorem EncStep.ok (h : EncStep P problem A enc enc') (hP : P.WellFormed)
    (hok : EncOk P problem (A.Ordered P problem) enc) : EncOk P problem (A.Ordered P problem) enc' where
  tables := h.tables hok.tables
  origins := fun _ _ hk hroot hlearnt => h.origins hok hk hroot hlearnt
  deferred := h.deferred_ok hok
  newEntries := h.newEntries_ok hok
  tasks := h.tasks_ok hok
  unique := h.unique hok
  multiNames := h.multiNames hok
  multi := h.multi hok
  pendingForbid := h.pendingForbid_ok hok
  trackers := h.trackers_ok hok
  seen := h.seen_ok hP hok
  gateClauses := h.gateClauses hok
  auxClauses := h.auxClauses hok
  regCandidates := h.regCandidates_ok hok
  regDisjunctions := h.regDisjunctions_ok hok
  regLearnt := h.regLearnt_ok hok
  learntVars := by
    rw [h.learntClauses]
    exact fun c hc l hl => Nat.lt_of_lt_of_le (hok.learntVars c hc l hl)
      (h.grows hok.tables).vars.origins.length_le

theorem EncSteps.ok (h : EncSteps P problem A enc enc') (hP : P.WellFormed)
    (hok : EncOk P problem (A.Ordered P problem) enc) : EncOk P problem (A.Ordered P problem) enc' := by
  induction h with
  | refl => exact hok
  | tail _ hstep ih => exact hstep.ok hP ih

theorem EncSteps.grows (h : EncSteps P problem A enc enc') (hP : P.WellFormed)
    (hok : EncOk P problem (A.Ordered P problem) enc) : enc.state.Grows enc'.state := by
  induction h with
  | refl => exact .refl _
  | tail hpre hstep ih => exact ih.trans (hstep.grows (EncSteps.ok hpre hP hok).tables)

theorem EncSteps.level (h : EncSteps P problem A enc enc') : enc'.level = enc.level := by
  induction h with
  | refl => rfl
  | tail _ hstep ih => rw [hstep.level, ih]

end Preservation

end Resolvo
