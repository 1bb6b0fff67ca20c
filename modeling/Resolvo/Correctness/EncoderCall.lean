import Resolvo.Correctness.Coverage
import Resolvo.Model.Solver

/-!
# `Correctness.EncoderCall` — a whole call of the encoder

A call queues the new solvables and the deferred requirements that fired, processes tasks until none is
left, and completes the encodings of the packages. Each part is a sequence of encoder steps, and each keeps
`Running`: the encoder's invariants, the completeness of the package encodings, and the coverage.
-/

set_option linter.unusedSectionVars false

namespace Resolvo

open Sat Relation SolverState

variable {N S F : Type} [DecidableEq N] [DecidableEq S]

/-! ## The parts of a call -/

namespace RunFacts

/-- While a task is processed. -/
def quiet (A : RunFacts) : RunFacts := { A with picking := False, final := False }

/-- While tasks are picked. -/
def pick (A : RunFacts) : RunFacts := { A with picking := True, final := False }

/-- While the package encodings are completed. -/
def finish (A : RunFacts) : RunFacts := { A with picking := False, final := True }

end RunFacts

section Call

variable {P : DependencyProvider N S} {problem : Problem S} {A : RunFacts} {enc enc' : Encoder N S F}

/-- Processing a task is a part of picking it. -/
theorem EncStep.of_quiet (h : EncStep P problem A.quiet enc enc') : EncStep P problem A.pick enc enc' := by
  cases h with
  | complete i t _ hp => exact hp.elim
  | task t hne h => exact .task enc t hne h
  | solvable p => exact .solvable enc p
  | package name => exact .package enc name
  | intern x => exact .intern enc x
  | alloc o haux hne => exact .alloc enc o haux hne
  | gate r g id h ho hc => exact .gate enc r g id h ho hc
  | aux vs a h ho hc => exact .aux enc vs a h ho hc
  | atLeastOne name => exact .atLeastOne enc name
  | forbidTarget name v x hx hv hn => exact .forbidTarget enc name v x hx hv hn
  | disjunction d conj hconj h hreg => exact .disjunction enc d conj hconj h hreg
  | candidates r vars h hreg => exact .candidates enc r vars h hreg
  | deferred entry h => exact .deferred enc entry h
  | drain d _ hp => exact hp.elim
  | emit watched kind outcome ho hc hw hb hout hn =>
      exact .emit enc watched kind outcome ho hc hw hb hout ⟨hn.live, hn.unwatched, hn.distinct, hn.forced⟩
  | requirer gate parent id h => exact .requirer enc gate parent id h
  | tracker _ _ _ _ _ _ hf => exact hf.elim
  | atLeastOneTracker _ _ _ hf => exact hf.elim
  | clearForbid _ hf => exact hf.elim
  | clearAtLeastOne _ hf => exact hf.elim

theorem EncSteps.of_quiet (h : EncSteps P problem A.quiet enc enc') :
    EncSteps P problem A.pick enc enc' := by
  induction h with
  | refl => exact .refl
  | tail _ hstep ih => exact ih.tail hstep.of_quiet

/-- The invariants of an encoder depend on the run only. -/
theorem EncGood.congr {A' : RunFacts} (h : EncGood P problem A enc) (hhard : A'.hard = A.hard)
    (htracked : A'.tracked = A.tracked) : EncGood P problem A' enc where
  ok := by
    rw [RunFacts.Ordered, hhard]
    exact h.ok
  trail := ⟨h.trail.core, h.trail.allocated, h.trail.reasoned, hhard ▸ h.trail.positives,
    htracked ▸ h.trail.tracked, h.trail.entered⟩

/-- **The invariant of a running encoder.** -/
structure Running (P : DependencyProvider N S) (problem : Problem S) (A : RunFacts)
    (enc : Encoder N S F) : Prop where
  good : EncGood P problem A enc
  packages : PackagesEncoded enc.state
  coverage : Coverage P problem enc

/-! ## Processing a task -/

theorem complete_of_ne {t : Task N S} (ht : ∀ name, t ≠ .candidates name) (i : Nat) :
    enc.complete P i t = { enc with pending := enc.pending.eraseIdx i } := by
  cases t with
  | candidates name => exact absurd rfl (ht name)
  | _ => rfl

theorem complete_pending (i : Nat) (t : Task N S) :
    (enc.complete P i t).pending = enc.pending.eraseIdx i := by
  obtain ⟨names, h⟩ := enc.complete_eq (P := P) i t
  rw [h]

/-- A task that is not at the picked position is the picked one or stays. -/
theorem mem_eraseIdx_or {α : Type} {l : List α} {i : Nat} {a t : α} (hi : l[i]? = some t) (ha : a ∈ l) :
    a ∈ l.eraseIdx i ∨ a = t := by
  obtain ⟨j, hj, rfl⟩ := List.mem_iff_getElem.mp ha
  by_cases hij : j = i
  · subst hij
    rw [List.getElem?_eq_getElem hj] at hi
    exact .inr (Option.some.inj hi)
  · exact .inl (List.mem_eraseIdx_iff_getElem?.mpr ⟨j, hij, List.getElem?_eq_getElem hj⟩)

/-- What a task leaves behind, from the encoder it was picked from. -/
theorem task_spec (hP : P.WellFormed) (hg : EncGood P problem A.pick enc) {i : Nat} {t : Task N S}
    (hi : enc.pending[i]? = some t) (hready : t.ready P enc.pending = true) (available : S → Bool)
    (hun : ∀ p vs, t = .constraintCandidates p vs → A.unstranded → Unstranded P enc.state p vs) :
    EncSteps P problem A.quiet (enc.complete P i t)
        (Encoder.onTaskResult P problem available { enc with pending := enc.pending.eraseIdx i } t) ∧
      Settled P problem
        (Encoder.onTaskResult P problem available { enc with pending := enc.pending.eraseIdx i } t) t := by
  have hstep : EncSteps P problem A.pick enc (enc.complete P i t) :=
    .single (.complete enc i t hi trivial)
  have hg₀ : EncGood P problem A.quiet (enc.complete P i t) :=
    (EncSteps.good hstep hP hg).congr rfl rfl
  have htask := hg.ok.tasks t (List.mem_of_getElem? hi)
  have htask₀ : TaskOk P problem (A.quiet.Ordered P problem) (enc.complete P i t) t :=
    htask.mono (EncSteps.grows hstep hP hg.ok) fun _ hp => EncSteps.processed hstep hp
  cases t with
  | dependencies p =>
      rw [complete_of_ne (fun _ h => by cases h)] at hg₀ htask₀ ⊢
      exact onDependenciesAvailable_spec hP hg₀ p htask₀
  | candidates name =>
      -- no solvable of the package is true: the package was not processed yet
      have hfree : A.quiet.hard → ∀ x v, P.solvableName x = name →
          (enc.complete P i (.candidates name)).state.IsVar (.solvable x) v →
          (enc.complete P i (.candidates name)).state.value v ≠ some true := by
        rintro hh x v rfl hx hv
        obtain ⟨hx', hv'⟩ := EncSteps.positive_of hstep hP hg hx hv
        exact awaitsCandidates_eq_false.mp (hg.trail.positives hh x v hx' hv').2
          (List.mem_of_getElem? hi)
      have h := onCandidatesAvailable_spec hP hg₀ htask₀ hfree
      rw [← onCandidatesAvailable_eq] at h
      exact h
  | conditionData p r c =>
      rw [complete_of_ne (fun _ h => by cases h)] at hg₀ ⊢
      exact onConditionDataAvailable_spec hP hg₀ htask.1 htask.2
  | requirementCandidates p r condition =>
      have hproc : A.quiet.Ordered P problem → ∀ vs ∈ r.requirement.versionSets P,
          (enc.complete P i (.requirementCandidates p r condition)).Processed (P.versionSetName vs) := by
        intro _ vs hvs
        refine EncSteps.processed hstep ⟨htask.2.1 vs hvs, ?_⟩
        have := List.all_eq_true.mp hready vs hvs
        simpa using this
      rw [complete_of_ne (fun _ h => by cases h)] at hg₀ htask₀ hproc ⊢
      exact onRequirementCandidatesAvailable_spec hP hg₀ available htask₀ hproc
  | constraintCandidates p vs =>
      rw [complete_of_ne (fun _ h => by cases h)] at hg₀ ⊢
      exact onConstraintCandidatesAvailable_spec hP hg₀ htask fun hu => hun p vs rfl hu

/-- **Processing a task** keeps the invariant. -/
theorem Running.task (hP : P.WellFormed) (h : Running P problem A enc) {i : Nat} {t : Task N S}
    (hi : enc.pending[i]? = some t) (hready : t.ready P enc.pending = true) (available : S → Bool)
    (hun : ∀ p vs, t = .constraintCandidates p vs → A.unstranded → Unstranded P enc.state p vs) :
    EncSteps P problem A.pick enc
        (Encoder.onTaskResult P problem available { enc with pending := enc.pending.eraseIdx i } t) ∧
      Running P problem A
        (Encoder.onTaskResult P problem available { enc with pending := enc.pending.eraseIdx i } t) := by
  have hg : EncGood P problem A.pick enc := h.good.congr rfl rfl
  obtain ⟨hquiet, hsettled⟩ := task_spec hP hg hi hready available hun
  have hstep : EncStep P problem A.pick enc (enc.complete P i t) := .complete enc i t hi trivial
  have hsteps : EncSteps P problem A.pick enc _ := .head hstep (EncSteps.of_quiet hquiet)
  have hq := EncSteps.quiet hquiet (fun h => h)
  have hgrow := EncSteps.grows hsteps hP hg.ok
  obtain ⟨names, hcomplete⟩ := enc.complete_eq (P := P) i t
  generalize Encoder.onTaskResult P problem available { enc with pending := enc.pending.eraseIdx i } t =
    e at hquiet hsettled hsteps hq hgrow ⊢
  rw [hcomplete] at hq
  refine ⟨hsteps, (EncSteps.good hsteps hP hg).congr rfl rfl,
    EncSteps.packagesEncoded hsteps hP (fun h => h) hg h.packages, ?_⟩
  refine h.coverage.advance ⟨hgrow, fun _ _ _ _ hd => .inl (hq.keeps hd), fun t' ht' => ?_⟩
    hq.solvables hq.packages
  rcases mem_eraseIdx_or hi ht' with ht' | rfl
  · exact .inl (hq.pending ht')
  · exact .inr hsettled

/-! ## The end of a call -/

/-- An encoder between two calls. -/
def Encoder.idle (level : Nat) (s : SolverState N S F) : Encoder N S F := { level, state := s }

/-- The invariant of an encoder that has nothing left to do holds of the idle one. -/
theorem EncOk.idle {ordered : Prop} (h : EncOk P problem ordered enc) (hpending : enc.pending = [])
    (hforbid : enc.pendingForbidClauses = {}) (hnew : enc.newAtLeastOnePackages = {}) :
    EncOk P problem ordered (.idle enc.level enc.state) := by
  have hproc : ∀ name, enc.Processed name → (Encoder.idle enc.level enc.state).Processed name :=
    fun name hp => ⟨hp.1, rfl⟩
  have hproc' : ∀ name, (Encoder.idle enc.level enc.state).Processed name → enc.Processed name :=
    fun name hp => ⟨hp.1, by rw [hpending]; rfl⟩
  have htracks : ∀ name v, enc.Tracks name v →
      (Encoder.idle enc.level enc.state).Tracks name v := by
    rintro name v (ht | ht)
    · rw [hforbid] at ht
      cases ht
    · exact .inr ht
  have hreg : ∀ v, enc.Registered P v → (Encoder.idle enc.level enc.state).Registered P v :=
    fun v ⟨x, hx, hr⟩ => ⟨x, hx, hr.imp_right (htracks _ v)⟩
  exact {
    tables := by
      have ht := h.tables
      rw [hnew] at ht
      exact ht
    origins := h.origins
    deferred := h.deferred
    newEntries := fun e he => by cases he
    tasks := fun t ht => by cases ht
    unique := List.Pairwise.nil
    multiNames := fun name hn => ⟨(h.multiNames name hn).1, hproc name (h.multiNames name hn).2⟩
    multi := fun name hp hm => h.multi name (hproc' name hp) hm
    pendingForbid := fun e he => by cases he
    trackers := fun hh name tr htr => ⟨hproc name (h.trackers hh name tr htr).1,
      (h.trackers hh name tr htr).2⟩
    seen := fun v hv => by cases hv
    gateClauses := h.gateClauses
    auxClauses := h.auxClauses
    regCandidates := fun r vars hr v hv => hreg v (h.regCandidates r vars hr v hv)
    regDisjunctions := fun d hd v hv => hreg v (h.regDisjunctions d hd v hv)
    regLearnt := fun c hc v x hv hx => hreg v (h.regLearnt c hc v x hv hx)
    learntVars := h.learntVars }

theorem Coverage.idle (h : Coverage P problem enc) (hpending : enc.pending = []) :
    Coverage P problem (.idle enc.level enc.state) := by
  have ha : Advances P problem enc (.idle enc.level enc.state) :=
    ⟨.refl _, fun _ _ _ _ hd => .inl hd, fun t ht => by rw [hpending] at ht; cases ht⟩
  exact h.advance ha (fun _ hp => .inl hp) fun _ hn => .inl hn

theorem EncTrail.idle (h : EncTrail P A enc) :
    EncTrail P A (.idle enc.level enc.state) :=
  ⟨h.core, h.allocated, h.reasoned, fun hh x v hx hv => ⟨(h.positives hh x v hx hv).1, rfl⟩, h.tracked,
    fun e he => by cases he⟩

/-- The end of a call picks nothing. -/
theorem finish_steps (hP : P.WellFormed) (h : Running P problem A enc) :
    EncSteps P problem A.finish enc enc.finish ∧ PackagesEncoded enc.finish.state :=
  finish_spec hP trivial (h.good.congr rfl rfl) h.packages

/-- The end of a call adds no task. -/
theorem finish_pending (P : DependencyProvider N S) (enc : Encoder N S F) :
    enc.finish.pending = enc.pending := by
  have hforbid : ∀ (name : N) (a b : VariableId) (bit : Bool) (e : Encoder N S F),
      (Encoder.addForbidClause name a b bit e).pending = e.pending := by
    intro name a b bit e
    rw [Encoder.addForbidClause_eq P]
    obtain ⟨q, tr, as, flags, panicked, heq⟩ := e.emit_eq (P := P)
      (some (negative a, Encoder.helperLiteral b bit))
      (.forbidMultipleInstances a (Encoder.helperLiteral b bit) name)
      (Encoder.forbidOutcome (negative a) (Encoder.helperLiteral b bit)
        (e.state.decisionTracker.eval (negative a))
        (e.state.decisionTracker.eval (Encoder.helperLiteral b bit)))
    rw [heq]
  have hone : ∀ (ato v : VariableId) (e : Encoder N S F),
      (Encoder.addAtLeastOneClause ato e v).pending = e.pending := by
    intro ato v e
    rw [Encoder.addAtLeastOneClause_eq P]
    obtain ⟨q, tr, as, flags, panicked, heq⟩ := e.emit_eq (P := P) (some (positive ato, negative v))
      (.anyOf ato v) (if e.state.value v = some true then .forced (positive ato) else .idle)
    rw [heq]
  have htrack : ∀ (e : Encoder N S F) (c : N × VariableId),
      (e.addPendingForbidClause c).pending = e.pending := by
    rintro e ⟨name, v⟩
    have hadd : ((e.state.atMostOneTrackers.getD name {}).add v (Encoder.addForbidClause name)
        (Encoder.allocForbidMultiple name) e).2.2.pending = e.pending :=
      AtMostOnceTracker.add_rule (fun e' : Encoder N S F => e'.pending = e.pending)
        (fun a b bit e' h' => (hforbid name a b bit e').trans h') (fun _ h => h) _ v rfl
    rw [addPendingForbidClause_eq]
    generalize (e.state.atMostOneTrackers.getD name {}).add v (Encoder.addForbidClause name)
      (Encoder.allocForbidMultiple name) e = r at hadd ⊢
    obtain ⟨isNew, t, st⟩ := r
    cases isNew with
    | false => exact hadd
    | true =>
        simp only [Encoder.linkNew, if_true]
        split <;> exact hadd
  have h₁ : enc.addPendingForbidClauses.pending = enc.pending :=
    List.foldl_rule (fun e : Encoder N S F => e.pending = enc.pending) _ rfl
      fun e c _ he => (htrack e c).trans he
  refine Eq.trans ?_ h₁
  refine List.foldl_rule (fun e : Encoder N S F => e.pending = enc.addPendingForbidClauses.pending) _ rfl
    fun e c _ he => ?_
  obtain ⟨name, ato⟩ := c
  exact List.foldl_rule (fun e' : Encoder N S F =>
    e'.pending = enc.addPendingForbidClauses.pending) (e.state.atMostOneTrackers.getD name {}).vars he
    fun e' v _ h' => (hone ato v e').trans h'

/-- **The end of a call** keeps the invariant, and leaves an idle encoder. -/
theorem Running.finish (hP : P.WellFormed) (h : Running P problem A enc) (hpending : enc.pending = []) :
    EncSteps P problem A.finish enc enc.finish ∧
      Running P problem A (.idle enc.level enc.finish.state) := by
  obtain ⟨hsteps, hpackages⟩ := finish_steps hP h
  have hg : EncGood P problem A.finish enc := h.good.congr rfl rfl
  have hg' := EncSteps.good hsteps hP hg
  obtain ⟨hforbid, hnew⟩ := finish_cleared P enc
  have hpending' : enc.finish.pending = [] := (finish_pending P enc).trans hpending
  have hlevel := EncSteps.level hsteps
  have hcov := (h.coverage.quiet hsteps hP (fun h => h) hg).idle hpending'
  have hok := hg'.ok.idle hpending' hforbid hnew
  have htrail := hg'.trail.idle
  rw [hlevel] at hcov hok htrail
  exact ⟨hsteps, EncGood.congr ⟨hok, htrail⟩ rfl rfl, hpackages, hcov⟩

/-! ## The start of a call -/

/-- The task of a deferred requirement that fired. -/
def deferredTask (P : DependencyProvider N S) (d : DeferredRequirement S) : Task N S :=
  .requirementCandidates d.solvableId d.requirement (some (d.condition,
    [d.disjunct.map fun conjunct => Encoder.complementOf P conjunct.versionSet]))

/-- A deferred requirement is one of the problem's, and the packages of its condition were processed. -/
structure FiredOk (P : DependencyProvider N S) (problem : Problem S) (A : RunFacts)
    (enc : Encoder N S F) (d : DeferredRequirement S) : Prop where
  ok : DeferredOk P problem enc.state d
  processed : A.Ordered P problem → ∀ vs ∈ d.disjunct.map DeferredConjunct.versionSet,
    enc.Processed (P.versionSetName vs)

theorem FiredOk.mono {d : DeferredRequirement S} (h : FiredOk P problem A enc d) (hP : P.WellFormed)
    (hg : EncGood P problem A enc) (hsteps : EncSteps P problem A enc enc') :
    FiredOk P problem A enc' d where
  ok := h.ok.mono (EncSteps.grows hsteps hP hg.ok)
  processed := fun hh vs hvs => EncSteps.processed hsteps (h.processed hh vs hvs)

theorem queueDeferredRequirement_spec (hP : P.WellFormed) (hg : EncGood P problem A enc)
    {d : DeferredRequirement S} (h : FiredOk P problem A enc d) :
    EncSteps P problem A enc (enc.queueDeferredRequirement P d) ∧
      deferredTask P d ∈ (enc.queueDeferredRequirement P d).pending := by
  simp only [Encoder.queueDeferredRequirement]
  have hpack := queuePackages_steps P problem A enc
    ((d.requirement.requirement.versionSets P).map P.versionSetName)
  have hmem := (queuePackages_mem enc
    ((d.requirement.requirement.versionSets P).map P.versionSetName)).2
  generalize ((d.requirement.requirement.versionSets P).map P.versionSetName).foldl
    Encoder.queuePackage enc = e at hpack hmem ⊢
  have htask : TaskOk P problem (A.Ordered P problem) e (deferredTask P d) := by
    refine ⟨(h.mono hP hg hpack).ok.requires, fun vs hvs => hmem _ (List.mem_map_of_mem hvs),
      (fun hn => by cases hn), ?_⟩
    intro c dnf heq
    simp only [Option.some.injEq, Prod.mk.injEq] at heq
    obtain ⟨rfl, rfl⟩ := heq
    refine ⟨h.ok.condition, fun disjunct hd => ⟨_, h.ok.disjunct, ?_, fun hh vs hvs =>
      EncSteps.processed hpack (h.processed hh vs hvs)⟩⟩
    rw [List.mem_singleton.mp hd, List.map_map]
    rfl
  exact ⟨hpack.trans (queueTask_steps e _ (fun _ h => by cases h) htask),
    List.mem_append_right _ List.mem_cons_self⟩

theorem queueDeferred_spec (hP : P.WellFormed) (l : List (DeferredRequirement S))
    (hg : EncGood P problem A.quiet enc) (h : ∀ d ∈ l, FiredOk P problem A.quiet enc d) :
    EncSteps P problem A.quiet enc (l.foldl (Encoder.queueDeferredRequirement P) enc) ∧
      ∀ d ∈ l, deferredTask P d ∈ (l.foldl (Encoder.queueDeferredRequirement P) enc).pending := by
  induction l generalizing enc with
  | nil => exact ⟨.refl, by simp⟩
  | cons d l ih =>
      obtain ⟨h₁, hmem⟩ := queueDeferredRequirement_spec hP hg (h d List.mem_cons_self)
      obtain ⟨h₂, hall⟩ := ih (EncSteps.good h₁ hP hg) fun d' hd' =>
        (h d' (List.mem_cons_of_mem _ hd')).mono hP hg h₁
      refine ⟨h₁.trans h₂, fun d' hd' => ?_⟩
      rcases List.mem_cons.mp hd' with rfl | hd'
      · exact (EncSteps.quiet h₂ fun h => h).pending hmem
      · exact hall d' hd'

variable (P problem A) in
/-- A queued solvable is recorded. -/
theorem queueSolvables_spec (l : List (SolvableIdOrRoot S)) (enc : Encoder N S F) :
    EncSteps P problem A enc (l.foldl Encoder.queueSolvable enc) ∧
      enc.state.clausesAddedForSolvable ⊆
        (l.foldl Encoder.queueSolvable enc).state.clausesAddedForSolvable ∧
      ∀ p ∈ l, p ∈ (l.foldl Encoder.queueSolvable enc).state.clausesAddedForSolvable := by
  induction l generalizing enc with
  | nil => exact ⟨.refl, fun _ h => h, by simp⟩
  | cons p l ih =>
      obtain ⟨h, hsub, hall⟩ := ih (enc.queueSolvable p)
      have hp : enc.state.clausesAddedForSolvable ⊆ (enc.queueSolvable p).state.clausesAddedForSolvable ∧
          p ∈ (enc.queueSolvable p).state.clausesAddedForSolvable := by
        simp only [Encoder.queueSolvable]
        split
        · next hmem => exact ⟨fun _ h => h, hmem⟩
        · exact ⟨fun _ h => List.mem_append_left _ h, List.mem_append_right _ List.mem_cons_self⟩
      refine ⟨.head (.solvable enc p) h, fun q hq => hsub (hp.1 hq), fun q hq => ?_⟩
      rcases List.mem_cons.mp hq with rfl | hq
      · exact hsub hp.2
      · exact hall q hq

/-- `d` is what is left of the deferred requirements when the fired ones are taken out. -/
structure Drained (s : SolverState N S F) (fired : List (DeferredRequirement S))
    (d : IndexMap ConditionId (List (DeferredRequirement S))) : Prop where
  sub : ∀ e ∈ d.entries, ∀ entry ∈ e.2, ∃ l, (e.1, l) ∈ s.deferredRequirements.entries ∧ entry ∈ l
  holds : ∀ entry ∈ fired, s.deferredHolds entry = true ∧
    ∃ e ∈ s.deferredRequirements.entries, entry ∈ e.2
  kept : ∀ e ∈ s.deferredRequirements.entries, ∀ entry ∈ e.2,
    (∃ l, (e.1, l) ∈ d.entries ∧ entry ∈ l) ∨ entry ∈ fired

theorem Drained.refl (s : SolverState N S F) : Drained s [] s.deferredRequirements where
  sub := fun e he _ h => ⟨e.2, he, h⟩
  holds := by simp
  kept := fun e he _ h => .inl ⟨e.2, he, h⟩

theorem drainFiredDeferred_spec (s : SolverState N S F) (c : ConditionId) :
    ∃ d, (s.drainFiredDeferred c).2 = { s with deferredRequirements := d } ∧
      Drained s (s.drainFiredDeferred c).1 d := by
  simp only [SolverState.drainFiredDeferred]
  split
  · exact ⟨_, rfl, .refl s⟩
  · next entries hget =>
      refine ⟨_, rfl, ?_⟩
      have hfired : ∀ entry ∈ entries.filter s.deferredHolds, s.deferredHolds entry = true ∧
          ∃ e ∈ s.deferredRequirements.entries, entry ∈ e.2 := fun entry he =>
        ⟨(List.mem_filter.mp he).2, _, IndexMap.mem_of_get? hget, (List.mem_filter.mp he).1⟩
      split
      · next hempty =>
          refine ⟨fun e he entry hentry => ⟨e.2, IndexMap.mem_swapRemove he, hentry⟩, hfired, ?_⟩
          intro e he entry hentry
          rcases IndexMap.mem_swapRemove_or (k := c) he with h | ⟨-, h⟩
          · exact .inl ⟨e.2, h, hentry⟩
          · -- the whole entry of the condition fired
            rw [hget] at h
            obtain rfl := Option.some.inj h
            have hnil := List.filter_eq_nil_iff.mp (List.isEmpty_iff.mp hempty) entry hentry
            exact .inr (List.mem_filter.mpr ⟨hentry, by simpa using hnil⟩)
      · refine ⟨fun e he entry hentry => ?_, hfired, fun e he entry hentry => ?_⟩
        · rcases IndexMap.mem_insert he with rfl | he
          · exact ⟨entries, IndexMap.mem_of_get? hget, (List.mem_filter.mp hentry).1⟩
          · exact ⟨e.2, he, hentry⟩
        · rcases IndexMap.mem_insert_or (k := c)
            (v := entries.filter fun e => !s.deferredHolds e) he with h | ⟨hk, h⟩
          · exact .inl ⟨e.2, h, hentry⟩
          · rw [hget] at h
            obtain rfl := Option.some.inj h
            by_cases hh : s.deferredHolds entry = true
            · exact .inr (List.mem_filter.mpr ⟨hentry, hh⟩)
            · rw [hk]
              refine .inl ⟨_, IndexMap.mem_insert_self _ _ _, List.mem_filter.mpr ⟨hentry, ?_⟩⟩
              simpa using hh

theorem Drained.trans {s : SolverState N S F} {fired fired' : List (DeferredRequirement S)}
    {d d' : IndexMap ConditionId (List (DeferredRequirement S))} (h : Drained s fired d)
    (h' : Drained { s with deferredRequirements := d } fired' d') : Drained s (fired ++ fired') d' where
  sub := by
    intro e he entry hentry
    obtain ⟨l, hl, hmem⟩ := h'.sub e he entry hentry
    exact h.sub _ hl entry hmem
  holds := by
    intro entry he
    rcases List.mem_append.mp he with he | he
    · exact h.holds entry he
    · obtain ⟨hh, e, hmem, hentry⟩ := h'.holds entry he
      obtain ⟨l, hl, hmem'⟩ := h.sub e hmem entry hentry
      exact ⟨hh, _, hl, hmem'⟩
  kept := by
    intro e he entry hentry
    rcases h.kept e he entry hentry with ⟨l, hl, hmem⟩ | hf
    · exact (h'.kept _ hl entry hmem).imp_right fun hf => List.mem_append_right _ hf
    · exact .inr (List.mem_append_left _ hf)

theorem drainAll_spec (s : SolverState N S F) (conditions : List ConditionId) :
    ∃ d, (Config.drainAll s conditions).2 = { s with deferredRequirements := d } ∧
      Drained s (Config.drainAll s conditions).1 d := by
  induction conditions generalizing s with
  | nil => exact ⟨_, rfl, .refl s⟩
  | cons c rest ih =>
      obtain ⟨d, hd, hdrained⟩ := drainFiredDeferred_spec s c
      simp only [Config.drainAll]
      generalize s.drainFiredDeferred c = r at hd hdrained ⊢
      obtain ⟨fired, s'⟩ := r
      dsimp only at hd hdrained ⊢
      subst hd
      obtain ⟨d', hd', hdrained'⟩ := ih { s with deferredRequirements := d }
      exact ⟨d', hd', hdrained.trans hdrained'⟩

/-- **The start of a call** keeps the invariant: what fired is queued. -/
theorem Running.start (hP : P.WellFormed) {level : Nat} {s : SolverState N S F}
    (h : Running P problem A (.idle level s)) {fired : List (DeferredRequirement S)}
    {d : IndexMap ConditionId (List (DeferredRequirement S))} (hd : Drained s fired d)
    (solvables : List (SolvableIdOrRoot S)) :
    EncSteps P problem A.pick (.idle level s)
        (Encoder.start P { s with deferredRequirements := d } level solvables fired) ∧
      Running P problem A
        (Encoder.start P { s with deferredRequirements := d } level solvables fired) ∧
      ∀ p ∈ solvables, p ∈ (Encoder.start P { s with deferredRequirements := d } level solvables
        fired).state.clausesAddedForSolvable := by
  have hg : EncGood P problem A.pick (.idle level s) := h.good.congr rfl rfl
  have h₀ : EncSteps P problem A.pick (.idle level s)
      (.idle level { s with deferredRequirements := d }) :=
    .single (.drain _ d hd.sub trivial)
  have hg₀ := EncSteps.good h₀ hP hg
  have hgrow₀ := EncSteps.grows h₀ hP hg.ok
  have hfired : ∀ entry ∈ fired,
      FiredOk P problem A.quiet (.idle level { s with deferredRequirements := d }) entry := by
    intro entry hentry
    obtain ⟨hholds, e, he, hmem⟩ := hd.holds entry hentry
    have hok := (hg.ok.deferred e he entry hmem).1
    refine ⟨hok.mono hgrow₀, fun hh vs hvs => ?_⟩
    have hhard := hh.resolve_right (hok.requires.not_unconditional hok.condition)
    obtain ⟨conjunct, hc, rfl⟩ := List.mem_map.mp hvs
    obtain ⟨x, hx, hpos⟩ := List.any_eq_true.mp (List.all_eq_true.mp hholds conjunct hc)
    rw [hok.candidates conjunct hc] at hx
    obtain ⟨v, hv, hvt⟩ := SolverState.isPositivelyDecided_iff.mp hpos
    exact EncSteps.processed h₀ (hP.solvableName_of_matching hx ▸ hg.trail.positives hhard x v hv hvt)
  obtain ⟨h₁, -, hmem⟩ := queueSolvables_spec P problem A.quiet solvables
    (.idle level { s with deferredRequirements := d })
  have hg₁ := EncSteps.good h₁ hP (hg₀.congr rfl rfl)
  obtain ⟨h₂, htasks⟩ := queueDeferred_spec hP fired hg₁ fun entry hentry =>
    (hfired entry hentry).mono hP (hg₀.congr rfl rfl) h₁
  have hq := EncSteps.quiet (h₁.trans h₂) fun h => h
  have hsteps : EncSteps P problem A.pick (.idle level s)
      (Encoder.start P { s with deferredRequirements := d } level solvables fired) :=
    h₀.trans (EncSteps.of_quiet (h₁.trans h₂))
  have hgrow := EncSteps.grows hsteps hP hg.ok
  have hsolvables := (EncSteps.grows h₂ hP hg₁.ok).solvables
  refine ⟨hsteps, ⟨(EncSteps.good hsteps hP hg).congr rfl rfl,
    EncSteps.packagesEncoded hsteps hP (fun h => h) hg h.packages, ?_⟩,
    fun p hp => hsolvables (hmem p hp)⟩
  refine h.coverage.advance ⟨hgrow, fun p r c conj => ?_, fun t ht => by cases ht⟩ hq.solvables
    hq.packages
  rintro ⟨entries, he, entry, hentry, rfl, rfl, rfl⟩
  rcases hd.kept _ he entry hentry with ⟨l, hl, hmem⟩ | hf
  · exact .inl (hq.keeps ⟨l, hl, entry, hmem, rfl, rfl, rfl⟩)
  · obtain rfl : entry.condition = c := (hg.ok.deferred _ he entry hentry).2
    refine .inr ⟨_, ?_, .inl (htasks entry hf)⟩
    rw [List.map_map]
    exact List.mem_singleton_self _

end Call

end Resolvo
