import Resolvo.Correctness.Ledger
import Resolvo.Correctness.Runs

/-!
# `Correctness.Conditional` — no conditional requirement is lost or encoded twice

Between two calls of the encoder every disjunct of every conditional requirement that was declared is either
deferred under its condition or has a clause of its own. Each clause is labelled with the disjunct it stands
for; the labels of a run only grow, so a disjunct moves once and never back, however often the search
backtracks or restarts.
-/

set_option linter.unusedSectionVars false

namespace Resolvo

open Sat Relation SolverState

variable {N S F : Type} [DecidableEq N] [DecidableEq S]

/-! ## Labels -/

section Labels

variable {P : DependencyProvider N S} {problem : Problem S} {A : RunFacts} {s s' : SolverState N S F}
  {enc : Encoder N S F}

variable (P) in
/-- A conditional clause stands for a disjunct: of its parent, of its requirement, and its disjunction was
    allocated for the conjuncts. -/
def Encodes (s : SolverState N S F) (o : Occurrence S) (e : ConditionalEntry) : Prop :=
  s.IsVar o.solvable e.1 ∧ IsDisjunctId P s o.condition o.conjuncts e.2.1 ∧
    e.2.2 = o.requirement.requirement

theorem Encodes.mono {o : Occurrence S} {e : ConditionalEntry} (h : Encodes P s o e) (hg : s.Grows s') :
    Encodes P s' o e :=
  ⟨h.1.mono hg.vars, h.2.1.mono hg, h.2.2⟩

/-- The disjuncts that a task encodes get the next disjunctions. -/
theorem requirement_disjuncts (hP : P.WellFormed) (hg₀ : EncGood P problem A enc) (available : S → Bool)
    {p : SolvableIdOrRoot S} {r : ConditionalRequirement} {c : ConditionId}
    {dnf : List (List (DisjunctionComplement S))}
    (htask : TaskOk P problem (A.Ordered P problem) enc (.requirementCandidates p r (some (c, dnf))))
    (hproc : A.Ordered P problem → ∀ vs ∈ r.requirement.versionSets P,
      enc.Processed (P.versionSetName vs)) :
    let e := enc.onRequirementCandidatesAvailable P available p r (some (c, dnf))
    List.Forall₂ (Encodes P e.state) (Task.occurrences P problem (.requirementCandidates p r (some (c, dnf))))
      ((List.range' enc.state.disjunctions.length dnf.length).map
        fun d => ((enc.internSolvableOrRoot p).1, d, r.requirement)) := by
  rw [onRequirementCandidatesAvailable_eq]
  obtain ⟨h₀₃, hv, hcand, hreg⟩ := prepareRequirement_spec hP hg₀ available p r.requirement hproc
  obtain ⟨-, hsame, -⟩ := Encoder.moves_prepare P problem enc available p
    ((r.requirement.versionSets P).map P.sortedCandidates)
  dsimp only at h₀₃ hv hcand hreg hsame ⊢
  generalize (r.requirement.versionSets P).map P.sortedCandidates = candidates at h₀₃ hv hcand hreg hsame ⊢
  generalize (enc.internSolvableOrRoot p).1 = v at hv ⊢
  generalize (enc.internSolvableOrRoot p).2.internCandidates candidates = ce at h₀₃ hv hcand hreg hsame ⊢
  generalize (Encoder.prefetch available _ candidates.flatten : Encoder N S F) = e₃ at h₀₃ hv hcand hreg hsame ⊢
  have hg₃ := EncSteps.good h₀₃ hP hg₀
  have htask₃ := htask.mono (EncSteps.grows h₀₃ hP hg₀.ok) fun _ hp => EncSteps.processed h₀₃ hp
  obtain ⟨-, hdecl, -, -⟩ := conditionIds_spec hP hg₃ htask₃
  -- the disjuncts are those of conjunctions
  obtain ⟨hreq, -, -, hsome⟩ := htask₃
  obtain ⟨hcond, hdnf⟩ := hsome c dnf rfl
  obtain ⟨conjs, rfl, hconjs⟩ := exists_conjs (P := P) dnf
    (Q := fun conj => conj ∈ (P.resolveCondition c).toDnf ∧
      (A.Ordered P problem → ∀ vs ∈ conj, e₃.Processed (P.versionSetName vs))) fun d hd => by
        obtain ⟨conj, h₁, h₂, h₃⟩ := hdnf d hd
        exact ⟨conj, h₂, h₁, h₃⟩
  obtain ⟨h₄, hids⟩ := allocDisjunctions_spec hP c conjs hg₃ (fun conj hc => (hconjs conj hc).1)
    fun hh conj hc => (hconjs conj hc).2 hh
  obtain ⟨hrange, -⟩ := Encoder.ledger_allocDisjunctions P problem c
    (conjs.map fun conj => conj.map (Encoder.complementOf P)) e₃
  rw [hsame] at hrange
  have hdecl : ∀ d ∈ (Encoder.allocDisjunctions P c e₃
      (conjs.map fun conj => conj.map (Encoder.complementOf P))).1,
      DeclaresUnder P problem (Encoder.allocDisjunctions P c e₃
        (conjs.map fun conj => conj.map (Encoder.complementOf P))).2.state p r.requirement d := hdecl
  show List.Forall₂ (Encodes P (((Encoder.allocDisjunctions P c e₃ _).1.foldl _
    (Encoder.allocDisjunctions P c e₃ _).2).setCandidates _ _).state) _ _
  generalize Encoder.allocDisjunctions P c e₃
    (conjs.map fun conj => conj.map (Encoder.complementOf P)) = e₄ at h₄ hids hrange hdecl ⊢
  have hg₄ := EncSteps.good h₄ hP hg₃
  have hgrow₄ := EncSteps.grows h₄ hP hg₃.ok
  obtain ⟨h₅, -⟩ := encodeAll_spec hP hg₄ (hv.mono hgrow₄.vars) (hcand.mono hgrow₄.vars)
    (fun v hv => EncSteps.registered h₄ hP hg₃ (hreg v hv)) hdecl
  have hgrow₅ := EncSteps.grows h₅ hP hg₄.ok
  have hv₅ := (hv.mono hgrow₄.vars).mono hgrow₅.vars
  -- each conjunction got the next disjunction
  rw [hrange] at hids
  rw [Task.occurrences, List.map_map, List.forall₂_map_left_iff, List.forall₂_map_right_iff]
  rw [List.forall₂_map_right_iff] at hids
  refine hids.imp fun conj d hd => ?_
  obtain ⟨id, hid, hdis⟩ := hd
  obtain rfl := Option.some.inj hid
  refine ⟨hv₅, ?_, rfl⟩
  have hconj : conj.map (DisjunctionComplement.versionSet ∘ Encoder.complementOf P) = conj := by
    simp [Function.comp_def]
  simp only [Function.comp_apply, List.map_map, hconj]
  exact hdis.mono hgrow₅

/-- The clauses that a task adds stand for the disjuncts that it takes. -/
theorem task_disjuncts (hP : P.WellFormed) (hr : Running P problem A enc) {i : Nat} {t : Task N S}
    (hi : enc.pending[i]? = some t) (hready : t.ready P enc.pending = true) (available : S → Bool) :
    let e := Encoder.onTaskResult P problem available { enc with pending := enc.pending.eraseIdx i } t
    ∃ more, e.state.conditionalEntries = enc.state.conditionalEntries ++ more ∧
      List.Forall₂ (Encodes P e.state) (Encoder.encodedBy P problem t) more := by
  intro e
  have hmoves : Ledger.Moves P problem _ (e.ledger P problem) _ (Encoder.encodedBy P problem t) :=
    Encoder.moves_onTaskResult { enc with pending := enc.pending.eraseIdx i } available t
  obtain ⟨more, hmore, hlength⟩ := hmoves.entries
  -- a task that encodes nothing adds no conditional clause
  have hnone : Encoder.encodedBy P problem t = [] → ∃ more,
      e.state.conditionalEntries = enc.state.conditionalEntries ++ more ∧
        List.Forall₂ (Encodes P e.state) (Encoder.encodedBy P problem t) more := by
    intro hnil
    rw [hnil, List.length_nil] at hlength
    refine ⟨more, hmore, ?_⟩
    rw [hnil, List.length_eq_zero_iff.mp hlength]
    exact .nil
  cases t with
  | requirementCandidates p r condition =>
      cases condition with
      | none => exact hnone rfl
      | some cd =>
          obtain ⟨c, dnf⟩ := cd
          have hg : EncGood P problem A.pick enc := hr.good.congr rfl rfl
          have htask := hg.ok.tasks _ (List.mem_of_getElem? hi)
          have hstep : EncSteps P problem A.pick enc (enc.complete P i (.requirementCandidates p r (some (c, dnf)))) :=
            .single (.complete enc i _ hi trivial)
          have hg₀ : EncGood P problem A.quiet (enc.complete P i (.requirementCandidates p r (some (c, dnf)))) :=
            (EncSteps.good hstep hP hg).congr rfl rfl
          have htask₀ := htask.mono (EncSteps.grows hstep hP hg.ok) fun _ hp => EncSteps.processed hstep hp
          have hproc : A.quiet.Ordered P problem → ∀ vs ∈ r.requirement.versionSets P,
              (enc.complete P i (.requirementCandidates p r (some (c, dnf)))).Processed (P.versionSetName vs) := by
            intro _ vs hvs
            refine EncSteps.processed hstep ⟨htask.2.1 vs hvs, ?_⟩
            have := List.all_eq_true.mp hready vs hvs
            simpa using this
          rw [complete_of_ne (fun _ h => by cases h)] at hg₀ htask₀ hproc
          have hentries : Ledger.Moves P problem _ (e.ledger P problem) _ _ ∧ _ :=
            Encoder.moves_onRequirementCandidatesAvailable { enc with pending := enc.pending.eraseIdx i }
              available p r c dnf
          exact ⟨_, hentries.2, requirement_disjuncts hP hg₀ available htask₀ hproc⟩
  | _ => exact hnone rfl

end Labels

/-! ## What the search leaves alone -/

section Conserves

variable {P : DependencyProvider N S} {problem : Problem S} {A : RunFacts} {s s' s'' : SolverState N S F}
  {level level' : Nat}

/-- The search moves no disjunct: the solvables, the deferred disjuncts and the disjunctions stay, all new
    clauses are learnt, and the queue still knows every requires clause. -/
structure Conserves (s s' : SolverState N S F) : Prop where
  grows : s.Grows s'
  solvables : s'.clausesAddedForSolvable = s.clausesAddedForSolvable
  deferred : s'.deferredRequirements = s.deferredRequirements
  disjunctions : s'.disjunctions = s.disjunctions
  clauses : ∃ ids : List LearntClauseId, s'.clauses = s.clauses ++ ids.map Clause.learnt
  linked : s.decideQueue.entries = s.requiresEntries → s'.decideQueue.entries = s'.requiresEntries

namespace Conserves

theorem refl (s : SolverState N S F) : Conserves s s := ⟨.refl s, rfl, rfl, rfl, ⟨[], by simp⟩, id⟩

theorem trans (h : Conserves s s') (h' : Conserves s' s'') : Conserves s s'' where
  grows := h.grows.trans h'.grows
  solvables := h'.solvables.trans h.solvables
  deferred := h'.deferred.trans h.deferred
  disjunctions := h'.disjunctions.trans h.disjunctions
  clauses := by
    obtain ⟨ids, hids⟩ := h.clauses
    obtain ⟨ids', hids'⟩ := h'.clauses
    exact ⟨ids ++ ids', by rw [hids', hids, List.map_append, List.append_assoc]⟩
  linked := h'.linked ∘ h.linked

/-- A learnt clause is not conditional. -/
theorem conditionalEntries_learnt (ids : List LearntClauseId) :
    (ids.map (Clause.learnt (N := N))).filterMap conditionalEntry = [] := by
  rw [List.filterMap_map, List.filterMap_eq_nil_iff]
  intro id _
  rfl

theorem conditional (h : Conserves s s') : s'.conditionalEntries = s.conditionalEntries := by
  obtain ⟨ids, hids⟩ := h.clauses
  rw [conditionalEntries, hids, List.filterMap_append, conditionalEntries_learnt, List.append_nil]
  rfl

theorem of_searched (h : Searched s s')
    (hlinked : s.decideQueue.entries = s.requiresEntries → s'.decideQueue.entries = s'.requiresEntries) :
    Conserves s s' where
  grows := h.grows
  solvables := h.solvables
  deferred := h.deferred
  disjunctions := h.disjunctions
  clauses := h.clauses
  linked := hlinked

theorem withTracker (s : SolverState N S F) (t : DecisionTracker) : Conserves s (s.withTracker t) :=
  of_searched (SolverOk.searched_withTracker s t) id

/-- Bumping activities reorders the queue only. -/
theorem bumpActivity (P : DependencyProvider N S) (act : ActivityParams F) (s : SolverState N S F)
    (l : Literal) : Conserves s (s.bumpActivity P act l) := by
  obtain ⟨nameActivity, maxActivity, q, heq, hq⟩ := SolverOk.bumpActivity_frame P act s l
  rw [heq]
  refine of_searched ⟨rfl, rfl, rfl, rfl, rfl, rfl, rfl, rfl, rfl, rfl, rfl, rfl, rfl, ⟨[], by simp⟩,
    ⟨[], by simp⟩, List.prefix_refl _⟩ fun hlinked => ?_
  rcases hq with rfl | ⟨name, rfl⟩
  · exact hlinked
  · exact (DecideQueue.markNameHot_sameEntries s.decideQueue name).entries.trans hlinked

theorem deduces (h : Deduces level s s') : Conserves s s' := by
  cases h with
  | push d hd hmem hothers => exact withTracker s _
  | move id kind watched watchIndex old new hkind hbinary hwatched hnew =>
      exact of_searched ⟨rfl, rfl, rfl, rfl, rfl, rfl, rfl, rfl, rfl, rfl, rfl, rfl, rfl,
        ⟨[], by simp [updateWatch]⟩, ⟨[], by simp [updateWatch]⟩, List.prefix_refl _⟩ fun h => h

theorem propagates (h : Propagates level s s') : Conserves s s' := by
  induction h with
  | refl => exact refl s
  | tail _ hstep ih => exact ih.trans (deduces hstep)

/-- Learning adds a learnt clause. -/
theorem analyze (h : SolverOk P problem A level s) (act : ActivityParams F) {id learntId : ClauseId}
    {target : Nat} {l : Literal} (hlevel : level ≠ 1) (hf : s.Falsified id)
    (ha : s.analyze P act level id = some (target, learntId, l, s')) : Conserves s s' := by
  have hq := (h.analyzed act hlevel hf ha).queue.linked
  obtain ⟨r, t, hr, ht, rfl, -, rfl⟩ := analyze_eq P act ha
  have hmem := h.analyze_mem hf hr
  generalize swapFront r.analysis.learnt r.analysis.highestLevelIdx ++
    [(⟨r.decision.var, r.decision.value⟩ : Literal)] = learnt at hmem hq ⊢
  have hbump : Conserves s (learnt.foldl (SolverState.bumpActivity P act) s) :=
    List.foldl_rule (Conserves s) learnt (refl s) fun s₁ x _ h₁ => h₁.trans (bumpActivity P act s₁ x)
  refine hbump.trans (of_searched (SolverOk.learn_searched _ act r.learntWhy t fun x hx => ?_) fun _ => hq)
  obtain ⟨i, hi⟩ := hmem x hx
  exact ⟨i, by rwa [(bumpAll_same P act s learnt).literals h.core.arena]⟩

theorem decide (h : SolverOk P problem A level s) {act : ActivityParams F} {decision : Option QueueDecision}
    (hd : s.decide P act = some (decision, s')) : Conserves s s' := by
  have hq := (h.decide hd).queue.linked
  obtain ⟨⟨q, hs⟩, -, -⟩ := h.queue.decide hd
  subst hs
  exact of_searched ⟨rfl, rfl, rfl, rfl, rfl, rfl, rfl, rfl, rfl, rfl, rfl, rfl, rfl, ⟨[], by simp⟩,
    ⟨[], by simp⟩, List.prefix_refl _⟩ fun _ => hq

/-- A solvable gets a variable. -/
theorem interned (h : SolverOk P problem A level s) (hP : P.WellFormed) (p : SolvableIdOrRoot S) :
    Conserves s (s.internSolvableOrRoot p).2 where
  grows := by
    have hg : EncGood P problem A.quiet (.idle level s) := h.running.good.congr rfl rfl
    exact EncSteps.grows (internSolvableOrRoot_steps P problem A.quiet (.idle level s) p) hP hg.ok
  solvables := rfl
  deferred := rfl
  disjunctions := rfl
  clauses := ⟨[], (List.append_nil _).symm⟩
  linked := id

end Conserves

end Conserves

/-! ## The steps of the search -/

section Quiet

variable {P : DependencyProvider N S} {problem : Problem S} {A : RunFacts} {act : ActivityParams F}
  {c c' : Config N S F} {level : Nat}

namespace Config

def IsEncoding (c : Config N S F) : Prop :=
  match c.point with
  | .encoding .. => True
  | _ => False

/-- The solver went on without the encoder. -/
structure Quiet (c c' : Config N S F) : Prop where
  conserves : Conserves c.state c'.state
  idle : ¬ c'.IsEncoding

theorem Quiet.finish (h : Conserves c.state c'.state) (outcome : Outcome S) : Quiet c (c'.finish outcome) :=
  ⟨h, id⟩

theorem Quiet.panic (c : Config N S F) : Quiet c c.panic := .finish (.refl _) _

theorem Quiet.after (c' : Config N S F) (h : Conserves c.state c'.state) {c'' : Config N S F}
    (h' : Quiet c' c'') : Quiet c c'' :=
  ⟨h.trans h'.conserves, h'.idle⟩

theorem reset_quiet (c : Config N S F) : Quiet c c.reset := by
  unfold reset
  split
  · exact .panic c
  · exact ⟨.withTracker _ _, id⟩

theorem processUnsolvable_quiet (hP : P.WellFormed) (h : SolverOk P problem A level c.state) (id : ClauseId) :
    Quiet c (c.processUnsolvable id) := by
  unfold processUnsolvable
  split
  · split
    · exact .finish (.refl _) _
    · exact .panic c
  · split
    · exact .panic c
    · dsimp only
      split
      · exact .panic c
      · exact ⟨(Conserves.interned h hP c.rootSolvable).trans (.withTracker _ _), fun h => h⟩

theorem learnFromConflict_quiet (h : SolverOk P problem A c.level c.state) {id : ClauseId}
    (hf : c.state.Falsified id) : Quiet c (c.learnFromConflict P act id) := by
  unfold learnFromConflict
  split
  · split
    · exact .finish (.refl _) _
    · exact .panic c
  · next hlevel =>
      split
      · exact .panic c
      · next target learntId l s' ha =>
          split
          · exact .panic c
          · exact ⟨(Conserves.analyze h act hlevel hf ha).trans (.withTracker _ _), fun h => h⟩

theorem onConflict_quiet (hP : P.WellFormed) (h : SolverOk P problem A c.level c.state)
    (caller : PropagateCaller) {conflict : PropagationConflict} (hf : c.state.Falsified conflict.clause) :
    Quiet c (c.onConflict P act caller conflict) := by
  cases caller with
  | learn => exact learnFromConflict_quiet h hf
  | runSat =>
      unfold onConflict
      dsimp only
      split
      · exact processUnsolvable_quiet hP h conflict.clause
      · exact reset_quiet c

theorem encoderReturned_quiet (hP : P.WellFormed) (h : SolverOk P problem A level c.state) (install : Bool)
    (conflicting : List ClauseId) : Quiet c (encoderReturned install c conflicting) := by
  cases install with
  | true =>
      cases conflicting with
      | nil => exact ⟨.refl _, id⟩
      | cons id ids => exact processUnsolvable_quiet hP h id
  | false =>
      cases conflicting with
      | nil => exact ⟨.refl _, id⟩
      | cons id ids => exact reset_quiet c

theorem stepNextSoft_quiet (hP : P.WellFormed) (h : c.Ok P problem A) (hpoint : c.point = .nextSoft) :
    Quiet c c.stepNextSoft := by
  obtain ⟨-, hstate⟩ := h
  simp only [StateOk, hpoint] at hstate
  obtain ⟨level, hs⟩ := hstate
  unfold stepNextSoft
  split
  · exact .finish (.refl _) _
  · next additional rest hsoft =>
      have hinterned := Conserves.interned hs hP (.solvable additional)
      dsimp only
      split
      · exact ⟨hinterned, id⟩
      · refine ⟨hinterned, ?_⟩
        simp [IsEncoding, hpoint]

theorem stepPropagate_quiet (hP : P.WellFormed) (h : c.Ok P problem A) (ch : Choice S)
    {caller : PropagateCaller} (hpoint : c.point = .propagate caller) :
    Quiet c (c.stepPropagate P act ch caller) := by
  obtain ⟨-, hstate⟩ := h
  simp only [StateOk, hpoint] at hstate
  unfold stepPropagate
  split
  · exact .finish (.refl _) _
  · obtain ⟨hok, herror⟩ := decideAll_spec hstate.core
    split
    · next conflict s' hs =>
        obtain ⟨hforces, l, hassert, hl⟩ := herror conflict s' hs
        have hf : s'.Falsified conflict.clause := by
          rw [Falsified, Propagates.literals hforces.propagates, hassert.1]
          simpa using hl
        exact .after { c with state := s' } (.propagates hforces.propagates)
          (onConflict_quiet (c := { c with state := s' }) hP (hstate.propagates hforces.propagates) caller hf)
    · next s' hs => exact ⟨.propagates (hok s' hs).1.propagates, id⟩

theorem stepPropagating_quiet (hP : P.WellFormed) (h : c.Ok P problem A) {caller : PropagateCaller}
    (hpoint : c.point = .propagating caller) : Quiet c (c.stepPropagating P act caller) := by
  obtain ⟨-, hstate⟩ := h
  simp only [StateOk, hpoint] at hstate
  unfold stepPropagating
  split
  · exact ⟨.refl _, id⟩
  · next d t hn =>
      obtain ⟨hd, rfl⟩ := DecisionTracker.nextUnpropagated_spec hn
      have h₁ := hstate.propagated (i := c.state.decisionTracker.propagateIndex + 1)
        (List.getElem?_eq_some_iff.mp hd).1
      have hspec := propagateDecision_spec h₁.core (d := d) (List.mem_of_getElem? hd)
      dsimp only
      split
      · next s' hs => exact ⟨(Conserves.withTracker _ _).trans (.propagates (hspec.1 s' hs)), id⟩
      · next conflict s' hs =>
          obtain ⟨hprop, hf⟩ := hspec.2 conflict s' hs
          exact .after { c with state := s' } ((Conserves.withTracker _ _).trans (.propagates hprop))
            (onConflict_quiet (c := { c with state := s' }) hP (h₁.propagates hprop) caller hf)

theorem stepDeciding_quiet (h : c.Ok P problem A) (hpoint : c.point = .deciding) :
    Quiet c (c.stepDeciding P act) := by
  obtain ⟨-, hstate⟩ := h
  simp only [StateOk, hpoint] at hstate
  unfold stepDeciding
  split
  · exact .panic c
  · next s' hd => exact ⟨.decide hstate hd, id⟩
  · next d s' hd =>
      dsimp only
      split
      · exact .panic c
      · exact ⟨(Conserves.decide hstate hd).trans (.withTracker _ _), id⟩

end Config

end Quiet

/-! ## What is booked -/

section Booked

variable {P : DependencyProvider N S} {problem : Problem S} {A : RunFacts} {act : ActivityParams F}
  {enc enc' : Encoder N S F} {s : SolverState N S F} {level : Nat} {labels : List (Occurrence S)}
  {c c' : Config N S F}

variable (P problem) in
/-- **Every declared disjunct is booked once**: it is owed, deferred under its condition, or labels a
    conditional clause of its own, which the decide queue knows. -/
structure Booked (enc : Encoder N S F) (labels : List (Occurrence S)) : Prop where
  wf : (enc.ledger P problem).WF
  shared : (enc.state.clausesAddedForSolvable.flatMap (declaredOccurrences P problem)).Perm
    (enc.pending.flatMap (Task.occurrences P problem) ++
      (deferredOccurrences enc.state.deferredRequirements ++ labels))
  encodes : List.Forall₂ (Encodes P enc.state) labels enc.state.conditionalEntries
  linked : enc.state.decideQueue.entries = enc.state.requiresEntries

namespace Booked

theorem encodes_mono {s' : SolverState N S F} {entries : List ConditionalEntry}
    (h : List.Forall₂ (Encodes P s) labels entries) (hg : s.Grows s') :
    List.Forall₂ (Encodes P s') labels entries :=
  h.imp fun _ _ he => he.mono hg

/-- What moves stays booked. -/
theorem moves (enc : Encoder N S F) {taken encoded : List (Occurrence S)} {more : List ConditionalEntry}
    (hwf : (enc.ledger P problem).WF)
    (hshared : (enc.state.clausesAddedForSolvable.flatMap (declaredOccurrences P problem)).Perm
      (taken ++ (enc.pending.flatMap (Task.occurrences P problem) ++
        (deferredOccurrences enc.state.deferredRequirements ++ labels))))
    (hm : Ledger.Moves P problem (enc.ledger P problem) (enc'.ledger P problem) taken encoded)
    (hmore : enc'.state.conditionalEntries = enc.state.conditionalEntries ++ more)
    (hold : List.Forall₂ (Encodes P enc'.state) labels enc.state.conditionalEntries)
    (hnew : List.Forall₂ (Encodes P enc'.state) encoded more)
    (hlinked : enc'.state.decideQueue.entries = enc'.state.requiresEntries) :
    Booked P problem enc' (labels ++ encoded) where
  wf := hm.wf hwf
  shared := hm.balanced hshared
  encodes := by
    rw [hmore]
    exact List.rel_append hold hnew
  linked := hlinked

/-- The search keeps the books. -/
theorem conserves {level' : Nat} {s' : SolverState N S F} (h : Booked P problem (.idle level s) labels)
    (hs : Conserves s s') : Booked P problem (.idle level' s') labels where
  wf := by
    obtain ⟨h₁, h₂, h₃, h₄⟩ := h.wf
    refine ⟨?_, ?_, ?_, ?_⟩
    · show s'.clausesAddedForSolvable.Nodup
      rw [hs.solvables]
      exact h₁
    · show s'.deferredRequirements.keys.Nodup
      rw [hs.deferred]
      exact h₂
    · show ∀ e ∈ s'.deferredRequirements.entries, _
      rw [hs.deferred]
      exact h₃
    · show s'.conditionalEntries.map _ = List.range s'.disjunctions.length
      rw [hs.conditional, hs.disjunctions]
      exact h₄
  shared := by
    have hshared := h.shared
    show (s'.clausesAddedForSolvable.flatMap _).Perm ([] ++ (deferredOccurrences s'.deferredRequirements ++ labels))
    rw [hs.solvables, hs.deferred]
    exact hshared
  encodes := by
    show List.Forall₂ (Encodes P s') labels s'.conditionalEntries
    rw [hs.conditional]
    exact encodes_mono h.encodes hs.grows
  linked := hs.linked h.linked

/-- **Processing a task** keeps the books. -/
theorem task (hP : P.WellFormed) (h : Booked P problem enc labels) (hr : Running P problem A enc)
    (hu : ¬ A.unstranded) (hq : QueueOk P enc.state) {i : Nat} {t : Task N S} (hi : enc.pending[i]? = some t)
    (hready : t.ready P enc.pending = true) (available : S → Bool) :
    Booked P problem (Encoder.onTaskResult P problem available { enc with pending := enc.pending.eraseIdx i } t)
      (labels ++ Encoder.encodedBy P problem t) := by
  obtain ⟨hsteps, -⟩ := hr.task hP hi hready available fun _ _ _ hA => absurd hA hu
  have hg : EncGood P problem A.pick enc := hr.good.congr rfl rfl
  obtain ⟨more, hmore, hnew⟩ := task_disjuncts hP hr hi hready available
  have hmoves : Ledger.Moves P problem _ _ _ (Encoder.encodedBy P problem t) :=
    Encoder.moves_onTaskResult { enc with pending := enc.pending.eraseIdx i } available t
  refine moves { enc with pending := enc.pending.eraseIdx i } ⟨h.wf.solvables, h.wf.keys, h.wf.keyed, h.wf.conditional⟩ ?_ hmoves hmore
    (encodes_mono h.encodes (EncSteps.grows hsteps hP hg.ok)) hnew (EncSteps.queue hsteps hP hg.ok hq).linked
  -- the task that is taken owed its disjuncts
  obtain ⟨hlt, rfl⟩ := List.getElem?_eq_some_iff.mp hi
  have hperm := ((List.getElem_cons_eraseIdx_perm hlt).flatMap_right (Task.occurrences P problem)).symm
  rw [List.flatMap_cons] at hperm
  have hrest := hperm.append_right (deferredOccurrences enc.state.deferredRequirements ++ labels)
  rw [List.append_assoc] at hrest
  exact h.shared.trans hrest

/-- **The start of a call** keeps the books: what fired is owed. -/
theorem start (hP : P.WellFormed) (h : Booked P problem (.idle level s) labels)
    (hr : Running P problem A (.idle level s)) (hq : QueueOk P s) {fired : List (DeferredRequirement S)}
    {d : IndexMap ConditionId (List (DeferredRequirement S))} (hd : Drained s fired d)
    (hl : Ledger.Drains s.deferredRequirements d fired) (solvables : List (SolvableIdOrRoot S)) :
    Booked P problem (Encoder.start P { s with deferredRequirements := d } level solvables fired) labels := by
  obtain ⟨hsteps, -⟩ := hr.start hP hd solvables
  have hg : EncGood P problem A.pick (.idle level s) := hr.good.congr rfl rfl
  have hmoves : Ledger.Moves P problem _ _ _ _ :=
    Encoder.moves_start { s with deferredRequirements := d } level solvables fired
  obtain ⟨more, hmore, hlength⟩ := hmoves.entries
  obtain rfl := List.length_eq_zero_iff.mp hlength
  rw [← List.append_nil labels]
  refine moves (.idle level { s with deferredRequirements := d }) ⟨h.wf.solvables, hl.keys, hl.keyed h.wf.keyed, h.wf.conditional⟩ ?_ hmoves hmore
    (encodes_mono h.encodes (EncSteps.grows hsteps hP hg.ok)) .nil (EncSteps.queue hsteps hP hg.ok hq).linked
  refine h.shared.trans ?_
  show ([] ++ (deferredOccurrences s.deferredRequirements ++ labels)).Perm
    (_ ++ ([] ++ (deferredOccurrences d ++ labels)))
  rw [List.nil_append, List.nil_append, ← List.append_assoc]
  exact hl.moved.append_right _

/-- **The end of a call** keeps the books. -/
theorem finish (hP : P.WellFormed) (h : Booked P problem enc labels) (hr : Running P problem A enc)
    (hq : QueueOk P enc.state) (hpending : enc.pending = []) :
    Booked P problem (.idle level enc.finish.state) labels := by
  obtain ⟨hsteps, -⟩ := hr.finish hP hpending
  have hg : EncGood P problem A.finish enc := hr.good.congr rfl rfl
  have hledger : enc.finish.ledger P problem = enc.ledger P problem := Encoder.ledger_finish enc
  have hsame : enc.finish.state.conditionalEntries = enc.state.conditionalEntries ++ [] :=
    (congrArg Ledger.conditional hledger).trans (List.append_nil _).symm
  have hfinished : Booked P problem enc.finish (labels ++ []) :=
    moves enc h.wf h.shared (.of_eq hledger) hsame (encodes_mono h.encodes (EncSteps.grows hsteps hP hg.ok))
      .nil (EncSteps.queue hsteps hP hg.ok hq).linked
  rw [List.append_nil] at hfinished
  obtain ⟨hwf, hshared, hencodes, hlinked⟩ := hfinished
  rw [(finish_pending P enc).trans hpending] at hshared
  exact ⟨⟨hwf.solvables, hwf.keys, hwf.keyed, hwf.conditional⟩, hshared, hencodes, hlinked⟩

theorem solvable_of_declared {p : SolvableIdOrRoot S} {o : Occurrence S}
    (h : o ∈ declaredOccurrences P problem p) : o.solvable = p := by
  unfold declaredOccurrences at h
  split at h
  · cases h
  · obtain ⟨r, -, hr⟩ := List.mem_flatMap.mp h
    unfold requirementOccurrences at hr
    split at hr
    · cases hr
    · obtain ⟨conjuncts, -, rfl⟩ := List.mem_map.mp hr
      rfl

/-- Between two calls of the encoder a disjunct is deferred or encoded as often as it is declared. -/
theorem count_eq (h : Booked P problem (.idle level s) labels) {p : SolvableIdOrRoot S}
    (hp : p ∈ s.clausesAddedForSolvable) {o : Occurrence S} (ho : o ∈ declaredOccurrences P problem p) :
    (declaredOccurrences P problem p).count o =
      (deferredOccurrences s.deferredRequirements).count o + labels.count o := by
  have hnodup : s.clausesAddedForSolvable.Nodup := h.wf.solvables
  have hsplit := (List.perm_cons_erase hp).flatMap_right (declaredOccurrences P problem)
  rw [List.flatMap_cons] at hsplit
  have hshared := List.perm_iff_count.mp (hsplit.symm.trans h.shared) o
  -- no other solvable declares the disjunct
  have hother : ((s.clausesAddedForSolvable.erase p).flatMap (declaredOccurrences P problem)).count o = 0 := by
    refine List.count_eq_zero.mpr fun hmem => ?_
    obtain ⟨p', hp', ho'⟩ := List.mem_flatMap.mp hmem
    obtain rfl : p' = p := (solvable_of_declared ho').symm.trans (solvable_of_declared ho)
    exact hnodup.not_mem_erase hp'
  rw [List.count_append, hother] at hshared
  simpa [Encoder.idle] using hshared

end Booked

/-! ## What a step does -/

namespace Config

/-- The encoder at a program point; between two calls it is idle. -/
def encoder (c : Config N S F) : Encoder N S F :=
  match c.point with
  | .encoding _ vars => { vars with state := c.state }
  | _ => .idle c.level c.state

/-- The solve was neither cancelled nor did it panic. -/
def Alive (c : Config N S F) : Prop :=
  match c.point with
  | .done .cancelled | .done .panicked => False
  | _ => True

/-- The state is one between two calls of the encoder. -/
def BetweenCalls (c : Config N S F) : Prop := ¬ c.IsEncoding ∧ c.Alive

instance (c : Config N S F) : Decidable c.IsEncoding := by
  unfold IsEncoding
  split <;> infer_instance

instance (c : Config N S F) : Decidable c.Alive := by
  unfold Alive
  split <;> infer_instance

instance (c : Config N S F) : Decidable c.BetweenCalls := inferInstanceAs (Decidable (_ ∧ _))

theorem encoder_of_idle (h : ¬ c.IsEncoding) : c.encoder = .idle c.level c.state := by
  unfold encoder
  unfold IsEncoding at h
  split
  · next hpoint =>
      rw [hpoint] at h
      exact absurd trivial h
  · rfl

variable (P problem) in
/-- The disjuncts that a step turns into clauses. -/
def encodes (ch : Choice S) (c : Config N S F) : List (Occurrence S) :=
  match c.point with
  | .encoding _ vars =>
      if ch.cancel then []
      else
        match (nextTask P vars.pending ch.task).bind fun i => vars.pending[i]? with
        | some t => Encoder.encodedBy P problem t
        | none => []
  | _ => []

theorem encodes_of_idle (hc : ¬ c.IsEncoding) (ch : Choice S) : c.encodes P problem ch = [] := by
  unfold encodes
  unfold IsEncoding at hc
  split
  · next hpoint =>
      rw [hpoint] at hc
      exact absurd trivial hc
  · rfl

theorem encodes_nil {ch : Choice S} {install : Bool} {vars : EncoderVars N S}
    (hpoint : c.point = .encoding install vars) (hpending : vars.pending = []) :
    c.encodes P problem ch = [] := by
  simp [encodes, hpoint, hpending]

theorem encodes_task {ch : Choice S} {install : Bool} {vars : EncoderVars N S} {i : Nat} {t : Task N S}
    (hpoint : c.point = .encoding install vars) (hcancel : ¬ ch.cancel = true)
    (hi : nextTask P vars.pending ch.task = some i) (ht : vars.pending[i]? = some t) :
    c.encodes P problem ch = Encoder.encodedBy P problem t := by
  simp [encodes, hpoint, hcancel, hi, ht]

variable (P problem A) in
/-- What a step can do to the disjuncts. -/
inductive StepShape (ch : Choice S) (c : Config N S F) (encoded : List (Occurrence S)) : Config N S F → Prop where
  /-- The search goes on. -/
  | quiet {c' : Config N S F} (hc : ¬ c.IsEncoding) (hnone : encoded = []) (h : Quiet c c') :
      StepShape ch c encoded c'
  /-- A call of the encoder starts, after draining what fired. -/
  | start {c' : Config N S F} (hc : ¬ c.IsEncoding) (hnone : encoded = []) {s : SolverState N S F} {level : Nat}
      {d : IndexMap ConditionId (List (DeferredRequirement S))} {fired : List (DeferredRequirement S)}
      (solvables : List (SolvableIdOrRoot S)) (hs : Conserves c.state s) (hok : SolverOk P problem A level s)
      (hd : Drained s fired d) (hl : s.deferredRequirements.keys.Nodup → Ledger.Drains s.deferredRequirements d fired)
      (hstate : c'.state = c'.encoder.state)
      (h : c'.encoder = Encoder.start P { s with deferredRequirements := d } level solvables fired) :
      StepShape ch c encoded c'
  /-- A task is processed. -/
  | task {c' : Config N S F} {i : Nat} {t : Task N S} (hc : c.IsEncoding)
      (hnext : nextTask P c.encoder.pending ch.task = some i) (hi : c.encoder.pending[i]? = some t)
      (hready : t.ready P c.encoder.pending = true) (available : S → Bool)
      (hencoded : encoded = Encoder.encodedBy P problem t)
      (hstate : c'.state = (Encoder.onTaskResult P problem available
        { c.encoder with pending := c.encoder.pending.eraseIdx i } t).state)
      (h : c'.Alive → c'.encoder = Encoder.onTaskResult P problem available
        { c.encoder with pending := c.encoder.pending.eraseIdx i } t) : StepShape ch c encoded c'
  /-- A call of the encoder ends. -/
  | finish {c' : Config N S F} (hc : c.IsEncoding) (hnone : encoded = []) (hpending : c.encoder.pending = [])
      (h : Quiet { c with state := c.encoder.finish.state } c') : StepShape ch c encoded c'
  /-- The solve is over. -/
  | dead {c' : Config N S F} (h : ¬ c'.Alive) (hstate : c'.state = c.state) : StepShape ch c encoded c'

theorem stepLoopHead_shape (hP : P.WellFormed) (h : c.Ok P problem A) (ch : Choice S) (hpoint : c.point = .loopHead) :
    StepShape P problem A ch c [] (c.stepLoopHead P) := by
  obtain ⟨hhard, hstate⟩ := h
  simp only [StateOk, hpoint] at hstate
  obtain ⟨hs, hbound, hcase⟩ := hstate
  have hc : ¬ c.IsEncoding := by simp [IsEncoding, hpoint]
  unfold stepLoopHead
  split
  · next hlevel =>
      obtain ⟨h₁, hv⟩ := hs.interned hP c.rootSolvable
      have hinterned := Conserves.interned hs hP c.rootSolvable
      dsimp only
      split
      · exact .quiet hc rfl (.panic c)
      · next t hadd =>
          have hroot : true = true → c.rootSolvable = .root ∨ (¬ A.hard ∧ ¬ A.tracked) := fun _ => by
            by_cases hh : A.hard ∨ A.tracked
            · exact .inl (hhard hh).1
            · exact .inr (not_or.mp hh)
          have h₂ := h₁.installed hv (Nat.succ_pos c.startingLevel)
            (fun e he => Nat.lt_succ_of_le (hlevel ▸ hbound e he)) hroot hadd
          exact .start hc rfl [c.rootSolvable] (hinterned.trans (.withTracker _ t)) h₂ (.refl _) .refl rfl rfl
  · exact .quiet hc rfl ⟨.refl _, id⟩

theorem stepResolved_shape (h : c.Ok P problem A) (ch : Choice S) (hpoint : c.point = .resolved) :
    StepShape P problem A ch c [] (c.stepResolved P) := by
  obtain ⟨hhard, hstate⟩ := h
  simp only [StateOk, hpoint] at hstate
  have hc : ¬ c.IsEncoding := by simp [IsEncoding, hpoint]
  have hprop := (forceStuckGates_forces hstate.core c.level rfl).propagates
  have h₁ := hstate.propagates hprop
  unfold stepResolved
  generalize c.state.forceStuckGates c.level = r at hprop h₁ ⊢
  obtain ⟨forced, s₁⟩ := r
  dsimp only at hprop h₁ ⊢
  split
  · refine .quiet hc rfl ⟨.propagates hprop, ?_⟩
    cases forced <;> exact id
  · obtain ⟨d, hd, hdrained⟩ := drainAll_spec s₁ c.state.firedDeferredConditions
    have hdrains := fun hkeys => Ledger.drains_drainAll (s := s₁) hkeys c.state.firedDeferredConditions
    generalize drainAll s₁ c.state.firedDeferredConditions = r at hd hdrained hdrains ⊢
    obtain ⟨fired, s₂⟩ := r
    dsimp only at hd hdrained hdrains ⊢
    subst hd
    refine .start hc rfl _ (.propagates hprop) h₁ hdrained (fun hkeys => ?_) rfl rfl
    obtain ⟨d', hd', hdrains⟩ := hdrains hkeys
    obtain rfl : d = d' := congrArg SolverState.deferredRequirements hd'
    exact hdrains

theorem stepEncoding_shape (hP : P.WellFormed) (h : c.Ok P problem A) (ch : Choice S) {install : Bool}
    {vars : EncoderVars N S} (hpoint : c.point = .encoding install vars) :
    StepShape P problem A ch c (c.encodes P problem ch) (c.stepEncoding P problem ch install vars) := by
  obtain ⟨-, hstate⟩ := h
  simp only [StateOk, hpoint] at hstate
  obtain ⟨hr, hq, hlevel⟩ := hstate
  have hc : c.IsEncoding := by simp [IsEncoding, hpoint]
  have henc : c.encoder = { vars with state := c.state } := by simp [encoder, hpoint]
  unfold stepEncoding
  dsimp only
  split
  · next hpending =>
      -- no task is left
      have hnil : vars.pending = [] := List.isEmpty_iff.mp hpending
      obtain ⟨hsteps, hr'⟩ := hr.finish hP hnil
      have hq' := EncSteps.queue hsteps hP (hr.good.congr rfl rfl).ok hq
      refine .finish hc (encodes_nil hpoint hnil) (by rw [henc]; exact hnil) ?_
      rw [henc]
      split
      · exact .panic { c with state := (Encoder.finish { vars with state := c.state }).state }
      · exact encoderReturned_quiet
          (c := { c with state := (Encoder.finish { vars with state := c.state }).state }) hP ⟨hr', hq'⟩ install _
  · split
    · exact .dead id rfl
    · next hcancel =>
      split
      · exact .dead id rfl
      · next i hi =>
          split
          · exact .dead id rfl
          · next t ht =>
              have hready : t.ready P vars.pending = true := nextTask_ready hi ht
              refine .task hc (i := i) (t := t) ?_ ?_ ?_ ch.available (encodes_task hpoint hcancel hi ht) ?_ ?_
              · rw [henc]; exact hi
              · rw [henc]; exact ht
              · rw [henc]; exact hready
              · rw [henc]
                split <;> rfl
              · rw [henc]
                split
                · exact fun h => absurd h id
                · exact fun _ => rfl

/-- **What a step can do.** -/
theorem step_shape (hP : P.WellFormed) (h : c.Ok P problem A) (ch : Choice S) :
    StepShape P problem A ch c (c.encodes P problem ch) (step P act problem ch c) := by
  unfold step
  split
  · next hpoint =>
      have hc : ¬ c.IsEncoding := by simp [IsEncoding, hpoint]
      exact .quiet hc (encodes_of_idle hc ch) (stepNextSoft_quiet hP h hpoint)
  · next hpoint =>
      have hc : ¬ c.IsEncoding := by simp [IsEncoding, hpoint]
      rw [encodes_of_idle hc ch]
      exact stepLoopHead_shape hP h ch hpoint
  · next install vars hpoint => exact stepEncoding_shape hP h ch hpoint
  · next caller hpoint =>
      have hc : ¬ c.IsEncoding := by simp [IsEncoding, hpoint]
      exact .quiet hc (encodes_of_idle hc ch) (stepPropagate_quiet hP h ch hpoint)
  · next caller hpoint =>
      have hc : ¬ c.IsEncoding := by simp [IsEncoding, hpoint]
      exact .quiet hc (encodes_of_idle hc ch) (stepPropagating_quiet hP h hpoint)
  · next hpoint =>
      have hc : ¬ c.IsEncoding := by simp [IsEncoding, hpoint]
      exact .quiet hc (encodes_of_idle hc ch) (stepDeciding_quiet h hpoint)
  · next hpoint =>
      have hc : ¬ c.IsEncoding := by simp [IsEncoding, hpoint]
      rw [encodes_of_idle hc ch]
      exact stepResolved_shape h ch hpoint
  · next outcome hpoint =>
      have hc : ¬ c.IsEncoding := by simp [IsEncoding, hpoint]
      exact .quiet hc (encodes_of_idle hc ch) ⟨.refl _, hc⟩

/-! ## Steps and runs -/

theorem Ok.encoder (h : c.Ok P problem A) (hc : c.IsEncoding) :
    Running P problem A c.encoder ∧ QueueOk P c.encoder.state := by
  obtain ⟨-, hstate⟩ := h
  unfold IsEncoding at hc
  unfold Config.encoder
  unfold StateOk at hstate
  split at hc
  · next hpoint =>
      simp only [hpoint] at hstate ⊢
      exact ⟨hstate.1, hstate.2.1⟩
  · exact hc.elim

@[simp] theorem encoder_state (c : Config N S F) : c.encoder.state = c.state := by
  unfold Config.encoder
  split <;> rfl

/-- A solve that is over stays so. -/
theorem alive_of_step {ch : Choice S} (h : (step P act problem ch c).Alive) : c.Alive := by
  unfold step at h
  split at h
  case h_8 => exact h
  all_goals
    next hpoint => simp [Alive, hpoint]

/-- **One step keeps the books.** -/
theorem StepShape.booked (hP : P.WellFormed) (h : c.Ok P problem A) (hu : ¬ A.unstranded)
    (hb : Booked P problem c.encoder labels) {ch : Choice S} {encoded : List (Occurrence S)}
    (hstep : StepShape P problem A ch c encoded c') (halive : c'.Alive) :
    Booked P problem c'.encoder (labels ++ encoded) := by
  cases hstep with
  | quiet hc hnone hq =>
      rw [hnone, List.append_nil, encoder_of_idle hq.idle]
      rw [encoder_of_idle hc] at hb
      exact hb.conserves hq.conserves
  | @start hc hnone s level d fired solvables hs hok hd hl hstate henc =>
      rw [hnone, List.append_nil, henc]
      rw [encoder_of_idle hc] at hb
      have hb' : Booked P problem (.idle level s) labels := hb.conserves hs
      exact hb'.start hP hok.running hok.queue hd (hl hb'.wf.keys) solvables
  | task hc hnext hi hready available hencoded hstate henc =>
      obtain ⟨hr, hq⟩ := h.encoder hc
      rw [henc halive, hencoded]
      exact hb.task hP hr hu hq hi hready available
  | finish hc hnone hpending hq =>
      obtain ⟨hr, hqueue⟩ := h.encoder hc
      rw [hnone, List.append_nil, encoder_of_idle hq.idle]
      have hb' : Booked P problem (.idle 0 c.encoder.finish.state) labels := hb.finish hP hr hqueue hpending
      exact hb'.conserves hq.conserves
  | dead hdead _ => exact absurd halive hdead

/-- What no step takes back: solvables and clauses stay, and a step that takes deferred disjuncts out adds
    none and keeps the others in order. -/
structure Keeps (s s' : SolverState N S F) : Prop where
  solvables : s.clausesAddedForSolvable <+: s'.clausesAddedForSolvable
  clauses : s.clauses <+: s'.clauses
  deferred :
    (∀ k, (s'.deferredRequirements.getD k []).Sublist (s.deferredRequirements.getD k [])) ∨
    (∀ k, s.deferredRequirements.getD k [] <+: s'.deferredRequirements.getD k [])

theorem Keeps.conserves {s s' : SolverState N S F} (h : Conserves s s') : Keeps s s' where
  solvables := h.solvables ▸ List.prefix_refl _
  clauses := h.grows.clauses
  deferred := .inl fun _ => h.deferred ▸ List.Sublist.refl _

theorem Keeps.moves (enc : Encoder N S F) {enc' : Encoder N S F} {taken encoded : List (Occurrence S)}
    (h : Ledger.Moves P problem (enc.ledger P problem) (enc'.ledger P problem) taken encoded)
    (hg : enc.state.Grows enc'.state) : Keeps enc.state enc'.state where
  solvables := by
    obtain ⟨new, hnew, -⟩ := h.moved
    exact ⟨new, hnew.symm⟩
  clauses := hg.clauses
  deferred := .inr h.kept

/-- Starting a call defers nothing. -/
theorem start_deferred (s : SolverState N S F) (level : Nat) (solvables : List (SolvableIdOrRoot S))
    (fired : List (DeferredRequirement S)) :
    (Encoder.start P s level solvables fired).state.deferredRequirements = s.deferredRequirements := by
  have hpackages : ∀ (names : List N) (enc : Encoder N S F),
      (names.foldl Encoder.queuePackage enc).state.deferredRequirements = enc.state.deferredRequirements := by
    intro names enc
    refine List.foldl_rule (fun e : Encoder N S F => e.state.deferredRequirements = _) names rfl ?_
    intro e name _ he
    rw [← he]
    rcases e.queuePackage_cases name with ⟨-, h⟩ | ⟨-, h⟩ <;> rw [h]
  unfold Encoder.start
  refine List.foldl_rule (fun e : Encoder N S F => e.state.deferredRequirements = _) fired ?_ ?_
  · refine List.foldl_rule (fun e : Encoder N S F => e.state.deferredRequirements = _) solvables rfl ?_
    intro e p _ he
    obtain ⟨ps, tasks, -, h⟩ := e.queueSolvable_eq p
    rw [h]
    exact he
  · intro e entry _ he
    exact (hpackages _ e).trans he

theorem StepShape.keeps (hP : P.WellFormed) (h : c.Ok P problem A) (hu : ¬ A.unstranded)
    (hkeys : c.state.deferredRequirements.keys.Nodup) {ch : Choice S} {encoded : List (Occurrence S)}
    (hstep : StepShape P problem A ch c encoded c') : Keeps c.state c'.state := by
  cases hstep with
  | quiet hc hnone hq => exact .conserves hq.conserves
  | @start hc hnone s level d fired solvables hs hok hd hl hstate henc =>
      have hg : EncGood P problem A.pick (.idle level s) := hok.running.good.congr rfl rfl
      have hgrows := EncSteps.grows (hok.running.start hP hd solvables).1 hP hg.ok
      have hmoves : Ledger.Moves P problem _ _ _ _ :=
        Encoder.moves_start { s with deferredRequirements := d } level solvables fired
      obtain ⟨new, hnew, -⟩ := hmoves.moved
      rw [hstate, henc]
      refine ⟨?_, hs.grows.clauses.trans hgrows.clauses, .inl fun k => ?_⟩
      · rw [← hs.solvables]
        exact ⟨new, hnew.symm⟩
      · rw [start_deferred]
        have horder := (hl (hs.deferred ▸ hkeys)).order k
        rwa [hs.deferred] at horder
  | @task i t hc hnext hi hready available hencoded hstate henc =>
      obtain ⟨hr, hq⟩ := h.encoder hc
      have hg : EncGood P problem A.pick c.encoder := hr.good.congr rfl rfl
      have hsteps := (hr.task hP hi hready available fun _ _ _ hA => absurd hA hu).1
      have hmoves : Ledger.Moves P problem _ _ _ _ :=
        Encoder.moves_onTaskResult { c.encoder with pending := c.encoder.pending.eraseIdx i } available t
      have hgrows := EncSteps.grows hsteps hP hg.ok
      rw [hstate, ← c.encoder_state]
      exact .moves { c.encoder with pending := c.encoder.pending.eraseIdx i } hmoves hgrows
  | finish hc hnone hpending hq =>
      obtain ⟨hr, -⟩ := h.encoder hc
      have hg : EncGood P problem A.finish c.encoder := hr.good.congr rfl rfl
      have hgrows := EncSteps.grows (hr.finish hP hpending).1 hP hg.ok
      have hledger : c.encoder.finish.ledger P problem = c.encoder.ledger P problem := Encoder.ledger_finish c.encoder
      rw [← c.encoder_state]
      refine ⟨?_, hgrows.clauses.trans hq.conserves.grows.clauses, .inl fun k => ?_⟩
      · have hsame : c.encoder.finish.state.clausesAddedForSolvable = c.encoder.state.clausesAddedForSolvable :=
          congrArg Ledger.solvables hledger
        rw [hq.conserves.solvables, hsame]
      · have hsame : c.encoder.finish.state.deferredRequirements = c.encoder.state.deferredRequirements :=
          congrArg Ledger.deferred hledger
        rw [hq.conserves.deferred, hsame]
  | dead _ hstate => rw [hstate]; exact .conserves (.refl _)

/-- The disjuncts that a run has turned into clauses, in the order of the clauses. -/
def encodedBefore (P : DependencyProvider N S) (act : ActivityParams F) (problem : Problem S)
    (sched : Nat → Choice S) : Nat → List (Occurrence S)
  | 0 => []
  | n + 1 => encodedBefore P act problem sched n ++ (run P act problem sched n).encodes P problem (sched n)

theorem init_booked : Booked P problem (init (N := N) act problem).encoder [] where
  wf := ⟨List.nodup_nil, List.nodup_nil, (fun e he => by cases he), rfl⟩
  shared := .refl _
  encodes := .nil
  linked := rfl

/-- The books are right along every run. -/
theorem run_booked (hP : P.WellFormed) (sched : Nat → Choice S) (n : Nat)
    (halive : (run P act problem sched n).Alive) :
    Booked P problem (run P act problem sched n).encoder (encodedBefore P act problem sched n) := by
  induction n with
  | zero => exact init_booked
  | succ n ih =>
      rw [run_succ] at halive ⊢
      have hok : (run P act problem sched n).Ok P problem RunFacts.any :=
        run_ok hP (fun h => by rcases h with h | h <;> cases h) sched n fun h => by cases h
      exact (step_shape hP hok (sched n)).booked hP hok (fun h => h) (ih (alive_of_step halive)) halive

/-- No step of a run takes a clause back or reorders what is deferred. -/
theorem run_keeps (hP : P.WellFormed) (sched : Nat → Choice S) (n : Nat) :
    Keeps (run P act problem sched n).state (run P act problem sched (n + 1)).state := by
  rw [run_succ]
  have hok : (run P act problem sched n).Ok P problem RunFacts.any :=
    run_ok hP (fun h => by rcases h with h | h <;> cases h) sched n fun h => by cases h
  by_cases halive : (run P act problem sched n).Alive
  · have hkeys : (run P act problem sched n).encoder.state.deferredRequirements.keys.Nodup :=
      (run_booked hP sched n halive).wf.keys
    rw [encoder_state] at hkeys
    exact (step_shape hP hok (sched n)).keeps hP hok (fun h => h) hkeys
  · have hsame : step P act problem (sched n) (run P act problem sched n) = run P act problem sched n := by
      unfold step
      unfold Alive at halive
      split at halive
      · next hpoint => simp [hpoint]
      · next hpoint => simp [hpoint]
      · exact absurd trivial halive
    rw [hsame]
    exact .conserves (.refl _)

/-- **No conditional requirement is lost or encoded twice.** Between two calls of the encoder every disjunct
    of an encoded solvable, counted by occurrence, is deferred under its condition or labels a requires
    clause of its own that the decide queue knows; labels and clauses are only ever appended, and draining
    keeps the order of what stays deferred. -/
theorem disjuncts_booked (hP : P.WellFormed) (sched : Nat → Choice S) (n : Nat) :
    let c := run P act problem sched n
    let labels := encodedBefore P act problem sched n
    (c.BetweenCalls → Booked P problem (.idle c.level c.state) labels ∧
      ∀ p ∈ c.state.clausesAddedForSolvable, ∀ o ∈ declaredOccurrences P problem p,
        (declaredOccurrences P problem p).count o =
          (deferredOccurrences c.state.deferredRequirements).count o + labels.count o) ∧
    labels <+: encodedBefore P act problem sched (n + 1) ∧
    Keeps c.state (run P act problem sched (n + 1)).state := by
  intro c labels
  refine ⟨fun hc => ?_, List.prefix_append _ _, run_keeps hP sched n⟩
  have hb := run_booked hP sched n hc.2
  rw [encoder_of_idle hc.1] at hb
  exact ⟨hb, fun p hp o ho => hb.count_eq hp ho⟩

/-! ### A sample run -/

/-- The candidate of the first package requires the third, and the second if a certain candidate of the third
    is selected. -/
def conditionalBox : BundleBox where
  packages := [{ candidates := [1] }, { candidates := [2] }, { candidates := [3, 4] }]
  versionSets := [(0, [1]), (1, [2]), (2, [3, 4]), (2, [3])]
  conditions := [.requirement 3]
  dependencies := [(1, .known { requirements := [⟨none, .single 2⟩, ⟨some 0, .single 1⟩] })]

def conditionalProblem : Problem Nat := { requirements := [⟨none, .single 0⟩] }

def conditionalRun (n : Nat) : Config Nat Nat Rat :=
  run conditionalBox.provider defaultActivity conditionalProblem (nonYielding conditionalBox.provider) n

def conditionalLabels (n : Nat) : List (Occurrence Nat) :=
  encodedBefore conditionalBox.provider defaultActivity conditionalProblem (nonYielding conditionalBox.provider) n

/-- The only disjunct is deferred after sixteen steps and encoded after thirty-one. -/
theorem disjuncts_booked_deferredThenEncoded :
    let o : Occurrence Nat := ⟨.solvable 1, ⟨some 0, .single 1⟩, 0, [3]⟩
    (deferredOccurrences (conditionalRun 16).state.deferredRequirements = [o] ∧ conditionalLabels 16 = [] ∧
      Booked conditionalBox.provider conditionalProblem
        (.idle (conditionalRun 16).level (conditionalRun 16).state) (conditionalLabels 16)) ∧
    (deferredOccurrences (conditionalRun 31).state.deferredRequirements = [] ∧ conditionalLabels 31 = [o] ∧
      Booked conditionalBox.provider conditionalProblem
        (.idle (conditionalRun 31).level (conditionalRun 31).state) (conditionalLabels 31)) := by
  intro o
  have hP : conditionalBox.provider.WellFormed := BundleBox.wellFormed (by decide)
  refine ⟨⟨?_, ?_, ?_⟩, ?_, ?_, ?_⟩
  · decide +kernel
  · decide +kernel
  · exact ((disjuncts_booked hP (nonYielding conditionalBox.provider) 16).1 (by decide +kernel)).1
  · decide +kernel
  · decide +kernel
  · exact ((disjuncts_booked hP (nonYielding conditionalBox.provider) 31).1 (by decide +kernel)).1

end Config

end Booked

end Resolvo
