import Resolvo.Lib.Progress
import Resolvo.Correctness.Conditional

/-!
# `Correctness.Workload` — what is left to encode

Processing a task queues others, and every call of the encoder makes the search select solvables that have to
be encoded in turn. Each task has a price that covers the tasks it queues; a solvable that was not queued yet
and a disjunct that is deferred have theirs. If finitely many solvables can be reached from the root, the
prices of everything that is left add up to a number that every task lowers, that every call which finds
something to encode lowers, and that the search leaves alone.
-/

set_option linter.unusedSectionVars false

namespace Resolvo

open Sat Relation SolverState

variable {N S F : Type} [DecidableEq N] [DecidableEq S]

/-! ## What can be reached -/

section Reachable

variable (P : DependencyProvider N S) (problem : Problem S)

/-- What `p` declares mentions the version set. -/
def Mentions (p : SolvableIdOrRoot S) (vs : VersionSetId) : Prop :=
  (∃ r, Requires P problem p r ∧ (vs ∈ r.requirement.versionSets P ∨
    ∃ c, r.condition = some c ∧ ∃ conj ∈ (P.resolveCondition c).toDnf, vs ∈ conj)) ∨
  Constrains P problem p vs

/-- The solvable is listed for the package. -/
def Lists (name : N) (x : S) : Prop :=
  x ∈ (P.candidatesOf name).candidates ∨ (P.candidatesOf name).locked = some x ∨
    ∃ e ∈ (P.candidatesOf name).excluded, e.1 = x

/-- **The solvables that can be reached** from the root, over the packages that what they declare mentions. -/
inductive Reachable : SolvableIdOrRoot S → Prop where
  | root : Reachable .root
  | listed {p : SolvableIdOrRoot S} {vs : VersionSetId} {x : S} (hp : Reachable p)
      (hvs : Mentions P problem p vs) (hx : Lists P (P.versionSetName vs) x) : Reachable (.solvable x)

/-- A solvable that can be reached mentions the package. -/
def ReachableName (name : N) : Prop :=
  ∃ p vs, Reachable P problem p ∧ Mentions P problem p vs ∧ P.versionSetName vs = name

end Reachable

/-! ## Prices -/

section Prices

variable (P : DependencyProvider N S) (problem : Problem S)

/-- Encoding a requirement takes a task for each of its packages and one for its candidates. -/
def Requirement.price (r : Requirement) : Nat := (r.versionSets P).length + 1

/-- A deferred disjunct has to be drained, and its requirement encoded. -/
def Occurrence.price (o : Occurrence S) : Nat := o.requirement.requirement.price P + 2

/-- A conditional requirement may be encoded at once, and every disjunct may be deferred. -/
def ConditionalRequirement.price (r : ConditionalRequirement) : Nat :=
  match r.condition with
  | none => r.requirement.price P
  | some c => r.requirement.price P + (P.resolveCondition c).toDnf.length * (r.requirement.price P + 2) + 1

/-- **The price of a task** covers the tasks it queues. -/
def Task.price : Task N S → Nat
  | .dependencies p =>
      match P.dependenciesOf problem p with
      | .unknown _ => 1
      | .known deps => (deps.requirements.map (ConditionalRequirement.price P)).sum + 2 * deps.constrains.length + 1
  | .conditionData _ r c =>
      r.requirement.price P + (P.resolveCondition c).toDnf.length * (r.requirement.price P + 2) + 1
  | .candidates _ | .requirementCandidates .. | .constraintCandidates .. => 1

theorem Task.price_pos (t : Task N S) : 1 ≤ t.price P problem := by
  cases t with
  | dependencies p =>
      unfold Task.price
      dsimp only
      cases P.dependenciesOf problem p with
      | unknown reason => exact Nat.le_refl 1
      | known deps => exact Nat.le_add_left 1 _
  | conditionData p r c => exact Nat.le_add_left 1 _
  | _ => exact Nat.le_refl 1

end Prices

/-! ## The agenda -/

/-- What an encoder still has to do, and what it was asked for. -/
structure Agenda (N S : Type) where
  pending : List (Task N S)
  deferred : IndexMap ConditionId (List (DeferredRequirement S))
  solvables : List (SolvableIdOrRoot S)
  packages : List N
  known : IndexMap S VariableId

namespace Agenda

section Charged

variable (P : DependencyProvider N S) (problem : Problem S) (U : List (SolvableIdOrRoot S))

/-- **What is left to encode**, for the solvables of a list. -/
def load (a : Agenda N S) : Nat :=
  (a.pending.map (Task.price P problem)).sum +
    ((deferredOccurrences a.deferred).map (Occurrence.price P)).sum +
    ((U.filter fun p => p ∉ a.solvables).map fun p => (Task.dependencies p : Task N S).price P problem + 2).sum

/-- Everything on the agenda can be reached. -/
structure Within (a : Agenda N S) : Prop where
  solvables : ∀ p ∈ a.solvables, Reachable P problem p
  packages : ∀ name ∈ a.packages, ReachableName P problem name
  known : ∀ x, a.known.get? x ≠ none → Reachable P problem (.solvable x)

/-- From one agenda to another at a price. -/
structure Charged (price : Nat) (a a' : Agenda N S) : Prop where
  within : a.Within P problem → a'.Within P problem
  load : a'.load P problem U ≤ a.load P problem U + price

variable {P problem U} {a a' a'' : Agenda N S} {k k' : Nat}

theorem Charged.refl (a : Agenda N S) : Charged P problem U 0 a a := ⟨id, Nat.le_refl _⟩

theorem Charged.of_eq (h : a' = a) : Charged P problem U 0 a a' := by
  rw [h]
  exact .refl a

theorem Charged.trans (h : Charged P problem U k a a') (h' : Charged P problem U k' a' a'') :
    Charged P problem U (k + k') a a'' where
  within := h'.within ∘ h.within
  load := by
    have h₁ := h.load
    have h₂ := h'.load
    omega

/-- What is free can be done at any point. -/
theorem Charged.free (h : Charged P problem U k a a') (h' : Charged P problem U 0 a' a'') :
    Charged P problem U k a a'' := h.trans h'

theorem Charged.mono (h : Charged P problem U k a a') (hk : k ≤ k') : Charged P problem U k' a a' where
  within := h.within
  load := h.load.trans (Nat.add_le_add_left hk _)

/-- Another task is paid for. -/
theorem charged_task (a : Agenda N S) (t : Task N S) :
    Charged P problem U (t.price P problem) a { a with pending := a.pending ++ [t] } where
  within := fun h => ⟨h.solvables, h.packages, h.known⟩
  load := by
    simp only [Agenda.load, List.map_append, List.sum_append, List.map_singleton, List.sum_singleton]
    omega

/-- A task that was picked has been paid. -/
theorem load_eraseIdx (a : Agenda N S) {i : Nat} {t : Task N S} (hi : a.pending[i]? = some t) :
    Agenda.load P problem U { a with pending := a.pending.eraseIdx i } + t.price P problem = a.load P problem U := by
  have hsum := List.sum_map_eraseIdx hi (Task.price P problem)
  simp only [Agenda.load]
  omega

/-- A package is asked for. -/
theorem charged_package (a : Agenda N S) {name : N} (hname : ReachableName P problem name) :
    Charged P problem U 1 a
      { a with packages := a.packages ++ [name], pending := a.pending ++ [.candidates name] } where
  within := fun h => ⟨h.solvables, fun n hn => by
    rcases List.mem_append.mp hn with hn | hn
    · exact h.packages n hn
    · exact List.mem_singleton.mp hn ▸ hname, h.known⟩
  load := by
    have htask : Charged P problem U 1 a { a with pending := a.pending ++ [.candidates name] } :=
      charged_task a (.candidates name)
    exact htask.load

/-- A variable for a solvable is free. -/
theorem charged_known (a : Agenda N S) {known : IndexMap S VariableId}
    (h : ∀ x, known.get? x ≠ none → a.known.get? x ≠ none ∨ Reachable P problem (.solvable x)) :
    Charged P problem U 0 a { a with known } where
  within := fun hw => ⟨hw.solvables, hw.packages, fun x hx => (h x hx).elim (hw.known x) id⟩
  load := Nat.le_refl _

variable (P problem) in
/-- **A new solvable** pays for its own task, and more. -/
theorem load_solvable (a : Agenda N S) {p : SolvableIdOrRoot S} (hp : p ∈ U) (hnew : p ∉ a.solvables) :
    Agenda.load P problem U
      { a with solvables := a.solvables ++ [p], pending := a.pending ++ [.dependencies p] } + 2 ≤
      a.load P problem U := by
  have hsum := Progress.sum_map_filter_add_le hp (p := fun q => q ∉ a.solvables)
    (q := fun q => q ∉ a.solvables ++ [p]) (fun q hq => by
      simp only [decide_eq_true_eq] at hq ⊢
      exact fun hmem => hq (List.mem_append_left _ hmem))
    (by simpa using hnew) (by simp) fun p => (Task.dependencies p : Task N S).price P problem + 2
  simp only [Agenda.load, List.map_append, List.sum_append, List.map_singleton, List.sum_singleton]
  omega

variable (P problem U) in
/-- A deferred disjunct is paid for. -/
theorem load_deferred {deferred : IndexMap ConditionId (List (DeferredRequirement S))}
    {occurrences : List (Occurrence S)}
    (h : (deferredOccurrences deferred).Perm (occurrences ++ deferredOccurrences a.deferred)) :
    Agenda.load P problem U { a with deferred } =
      a.load P problem U + (occurrences.map (Occurrence.price P)).sum := by
  have hsum := (h.map (Occurrence.price P)).sum_eq
  rw [List.map_append, List.sum_append] at hsum
  simp only [Agenda.load, hsum]
  omega

end Charged

end Agenda

namespace Encoder

section Handlers

variable {P : DependencyProvider N S} {problem : Problem S} {U : List (SolvableIdOrRoot S)}
  {enc : Encoder N S F}

def agenda (enc : Encoder N S F) : Agenda N S where
  pending := enc.pending
  deferred := enc.state.deferredRequirements
  solvables := enc.state.clausesAddedForSolvable
  packages := enc.state.clausesAddedForPackage
  known := enc.state.variableMap.solvableToVariable

variable (P problem U) in
/-- What an operation of the encoder costs. -/
abbrev Costs (price : Nat) (enc enc' : Encoder N S F) : Prop :=
  Agenda.Charged P problem U price enc.agenda enc'.agenda

/-! ### What is free -/

theorem costs_of_agenda {enc' : Encoder N S F} (h : enc'.agenda = enc.agenda) : Costs P problem U 0 enc enc' :=
  .of_eq h

/-- Clauses are free. -/
theorem agenda_emit (P : DependencyProvider N S) (enc : Encoder N S F) (watched : Option Watches) (kind : Clause N)
    (outcome : EmitOutcome) : (enc.emit P watched kind outcome).agenda = enc.agenda := by
  obtain ⟨q, t, a, flags, panicked, heq⟩ := enc.emit_eq (P := P) watched kind outcome
  rw [heq]
  rfl

theorem agenda_foldl {α : Type} {f : Encoder N S F → α → Encoder N S F}
    (hf : ∀ enc a, (f enc a).agenda = enc.agenda) (l : List α) (enc : Encoder N S F) :
    (l.foldl f enc).agenda = enc.agenda := by
  induction l generalizing enc with
  | nil => rfl
  | cons a l ih => exact (ih (f enc a)).trans (hf enc a)

theorem agenda_registerForbidTarget (enc : Encoder N S F) (name : N) (v : VariableId) :
    (enc.registerForbidTarget name v).agenda = enc.agenda := by
  unfold registerForbidTarget
  split
  · rfl
  · split <;> rfl

theorem agenda_atLeastOneVariable (enc : Encoder N S F) (name : N) :
    (enc.atLeastOneVariable name).2.agenda = enc.agenda := by
  unfold atLeastOneVariable
  split <;> rfl

/-- The gate of a requirement is no solvable. -/
theorem agenda_requiresGate (enc : Encoder N S F) (r : Requirement) (candidates : List (List VariableId)) :
    (enc.requiresGate P r candidates).2.agenda = enc.agenda := by
  cases h : enc.state.requiresAuxVars.get? r with
  | some gate => rw [requiresGate_some P enc r candidates h]
  | none =>
      rw [requiresGate_none P enc r candidates h]
      exact agenda_emit P _ _ _ _

theorem agenda_encodeRequirement (v : VariableId) (r : Requirement) (candidates : List (List VariableId))
    (enc : Encoder N S F) (condition : Option DisjunctionId) :
    (encodeRequirement P v r candidates enc condition).agenda = enc.agenda := by
  rw [encodeRequirement_eq]
  split
  · rw [addSharedRequires_eq]
    refine Eq.trans ?_ (agenda_requiresGate (P := P) enc r candidates)
    exact agenda_emit P _ _ _ _
  · exact agenda_emit P _ _ _ _

/-- The end of a call is free: its variables are no solvables. -/
theorem agenda_finish (P : DependencyProvider N S) (enc : Encoder N S F) : enc.finish.agenda = enc.agenda := by
  unfold finish addPendingAtLeastOneClauses addPendingForbidClauses
  refine (agenda_foldl (fun e package => ?_) _ _).trans (agenda_foldl (fun e target => ?_) _ _)
  · refine agenda_foldl (fun e candidate => ?_) _ e
    rw [addAtLeastOneClause_eq P]
    exact agenda_emit P _ _ _ _
  · obtain ⟨name, v⟩ := target
    have hadd : ((e.state.atMostOneTrackers.getD name {}).add v (addForbidClause name)
        (allocForbidMultiple name) e).2.2.agenda = e.agenda := by
      refine AtMostOnceTracker.add_rule (fun e' : Encoder N S F => e'.agenda = e.agenda)
        (fun a b bit e' h => ?_) (fun _ h => h) _ v rfl
      rw [addForbidClause_eq P]
      exact (agenda_emit P _ _ _ _).trans h
    rw [addPendingForbidClause_eq]
    dsimp only
    generalize (e.state.atMostOneTrackers.getD name {}).add v (addForbidClause name)
      (allocForbidMultiple name) e = r at hadd ⊢
    unfold linkNew
    split
    · split <;> exact hadd
    · exact hadd

/-! ### Variables for solvables -/

theorem costs_internSolvable (enc : Encoder N S F) {x : S} (hx : Reachable P problem (.solvable x)) :
    Costs P problem U 0 enc (enc.internSolvable x).2 := by
  refine Agenda.charged_known enc.agenda fun y hy => ?_
  simp only [internSolvable, SolverState.internSolvable, VariableMap.internSolvable] at hy
  split at hy
  · exact .inl hy
  · dsimp only [VariableMap.alloc] at hy
    rw [IndexMap.get?_insert] at hy
    split at hy
    · next heq => exact .inr (heq ▸ hx)
    · exact .inl hy

theorem costs_internSolvableOrRoot (enc : Encoder N S F) {p : SolvableIdOrRoot S} (hp : Reachable P problem p) :
    Costs P problem U 0 enc (enc.internSolvableOrRoot p).2 := by
  cases p with
  | root => exact .refl _
  | solvable x => exact costs_internSolvable enc hp

theorem costs_internSolvables (l : List S) (enc : Encoder N S F)
    (hl : ∀ x ∈ l, Reachable P problem (.solvable x)) : Costs P problem U 0 enc (enc.internSolvables l).2 := by
  induction l generalizing enc with
  | nil => exact .refl _
  | cons x l ih =>
      have hfirst : Costs P problem U 0 enc (enc.internSolvable x).2 :=
        costs_internSolvable enc (hl x List.mem_cons_self)
      exact hfirst.free (ih (enc.internSolvable x).2 fun y hy => hl y (List.mem_cons_of_mem _ hy))

theorem costs_internCandidates (l : List (List S)) (enc : Encoder N S F)
    (hl : ∀ xs ∈ l, ∀ x ∈ xs, Reachable P problem (.solvable x)) :
    Costs P problem U 0 enc (enc.internCandidates l).2 := by
  induction l generalizing enc with
  | nil => exact .refl _
  | cons xs l ih =>
      have hfirst : Costs P problem U 0 enc (enc.internSolvables xs).2 :=
        costs_internSolvables xs enc (hl xs List.mem_cons_self)
      exact hfirst.free (ih (enc.internSolvables xs).2 fun ys hy => hl ys (List.mem_cons_of_mem _ hy))

/-- Doing something for each element of a list costs what the elements cost. -/
theorem costs_foldl {α : Type} {f : Encoder N S F → α → Encoder N S F} {k : α → Nat} (l : List α)
    (hf : ∀ enc, ∀ a ∈ l, Costs P problem U (k a) enc (f enc a)) (enc : Encoder N S F) :
    Costs P problem U (l.map k).sum enc (l.foldl f enc) := by
  induction l generalizing enc with
  | nil => exact .refl _
  | cons a l ih =>
      rw [List.map_cons, List.sum_cons]
      exact (hf enc a List.mem_cons_self).trans (ih (fun e b hb => hf e b (List.mem_cons_of_mem _ hb)) (f enc a))

theorem costs_foldl_free {α : Type} {f : Encoder N S F → α → Encoder N S F} (l : List α)
    (hf : ∀ enc, ∀ a ∈ l, Costs P problem U 0 enc (f enc a)) (enc : Encoder N S F) :
    Costs P problem U 0 enc (l.foldl f enc) :=
  (costs_foldl (k := fun _ => 0) l hf enc).mono (by simp)

/-! ### Queueing -/

/-- A solvable is queued at no cost: its task was accounted for. -/
theorem costs_queueSolvable (hU : ∀ p, Reachable P problem p → p ∈ U) (enc : Encoder N S F)
    {p : SolvableIdOrRoot S} (hp : Reachable P problem p) : Costs P problem U 0 enc (enc.queueSolvable p) := by
  unfold queueSolvable
  split
  · exact .refl _
  · next hnew =>
      refine ⟨fun h => ⟨fun q hq => ?_, h.packages, h.known⟩, ?_⟩
      · rcases List.mem_append.mp hq with hq | hq
        · exact h.solvables q hq
        · exact List.mem_singleton.mp hq ▸ hp
      · have hload := Agenda.load_solvable P problem enc.agenda (hU p hp) hnew
        exact (Nat.le_add_right _ 2).trans hload

theorem costs_queuePackage (enc : Encoder N S F) {name : N} (hname : ReachableName P problem name) :
    Costs P problem U 1 enc (enc.queuePackage name) := by
  unfold queuePackage
  split
  · exact (Agenda.Charged.refl _).mono (Nat.zero_le 1)
  · exact Agenda.charged_package enc.agenda hname

theorem costs_queuePackages (l : List VersionSetId)
    (hl : ∀ vs ∈ l, ReachableName P problem (P.versionSetName vs)) (enc : Encoder N S F) :
    Costs P problem U l.length enc ((l.map P.versionSetName).foldl queuePackage enc) := by
  have h := costs_foldl (U := U) (k := fun _ => 1) (l.map P.versionSetName) (fun e name hname => by
    obtain ⟨vs, hvs, rfl⟩ := List.mem_map.mp hname
    exact costs_queuePackage e (hl vs hvs)) enc
  exact h.mono (by simp [Function.comp_def])

theorem costs_queueTask (enc : Encoder N S F) (t : Task N S) :
    Costs P problem U (t.price P problem) enc (enc.queueTask t) :=
  Agenda.charged_task enc.agenda t

/-! ### Tasks -/

variable (P problem) in
/-- The requirements pay for their tasks and for the packages of those that carry no condition. -/
theorem requirements_price (p : SolvableIdOrRoot S) (l : List ConditionalRequirement) :
    ((l.filter fun r => r.condition.isNone).flatMap fun r => r.requirement.versionSets P).length +
      (l.map fun r => (requirementTask (N := N) p r).price P problem).sum = (l.map (ConditionalRequirement.price P)).sum := by
  induction l with
  | nil => rfl
  | cons r l ih =>
      rw [List.map_cons, List.map_cons, List.sum_cons, List.sum_cons, ← ih, List.filter_cons]
      unfold requirementTask ConditionalRequirement.price
      cases r.condition with
      | none =>
          simp only [Option.isNone_none, if_true, List.flatMap_cons, List.length_append, Task.price,
            Requirement.price]
          omega
      | some c =>
          simp only [Option.isNone_some, Bool.false_eq_true, if_false, Task.price]
          omega

/-- A solvable that is excluded costs nothing. -/
theorem costs_addExclusionClause (enc : Encoder N S F) {p : SolvableIdOrRoot S} (hp : Reachable P problem p)
    (reason : StringId) : Costs P problem U 0 enc (enc.addExclusionClause p reason) := by
  rw [addExclusionClause_eq P]
  exact (costs_internSolvableOrRoot enc hp).free (costs_of_agenda (agenda_emit P _ _ _ _))

theorem price_known {p : SolvableIdOrRoot S} {deps : KnownDependencies}
    (hdeps : P.dependenciesOf problem p = .known deps) :
    (Task.dependencies p : Task N S).price P problem =
      (deps.requirements.map (ConditionalRequirement.price P)).sum + 2 * deps.constrains.length + 1 := by
  unfold Task.price
  dsimp only
  rw [hdeps]

/-- **The dependencies of a solvable** cost less than their task. -/
theorem costs_onDependenciesAvailable (enc : Encoder N S F) {p : SolvableIdOrRoot S}
    (hp : Reachable P problem p) :
    Costs P problem U ((Task.dependencies p : Task N S).price P problem - 1) enc
      (enc.onDependenciesAvailable P problem p) := by
  cases hdeps : P.dependenciesOf problem p with
  | unknown reason =>
      unfold onDependenciesAvailable
      rw [hdeps]
      exact (costs_addExclusionClause enc hp reason).mono (Nat.zero_le _)
  | known deps =>
      unfold onDependenciesAvailable
      rw [hdeps, price_known hdeps]
      dsimp only
      -- the packages, the requirements, the constraints
      have hnames := costs_queuePackages (U := U)
        ((deps.requirements.filter fun r => r.condition.isNone).flatMap
          (fun r => r.requirement.versionSets P) ++ deps.constrains) (fun vs hvs => by
        refine ⟨p, vs, hp, ?_, rfl⟩
        rcases List.mem_append.mp hvs with hvs | hvs
        · obtain ⟨r, hr, hvs⟩ := List.mem_flatMap.mp hvs
          exact .inl ⟨r, ⟨deps, hdeps, (List.mem_filter.mp hr).1⟩, .inl hvs⟩
        · exact .inr ⟨deps, hdeps, hvs⟩) enc
      have hrequirements : ∀ e : Encoder N S F, Costs P problem U
          (deps.requirements.map fun r => (requirementTask (N := N) p r).price P problem).sum e
          (deps.requirements.foldl (queueConditionalRequirement p) e) := fun e =>
        costs_foldl deps.requirements (fun e r _ => by
          rw [queueConditionalRequirement_eq p e r]
          exact costs_queueTask e (requirementTask p r)) e
      have hconstrains : ∀ e : Encoder N S F, Costs P problem U
          (deps.constrains.map fun _ => 1).sum e (deps.constrains.foldl (queueConstraint p) e) := fun e =>
        costs_foldl deps.constrains (fun e vs _ => costs_queueTask e (.constraintCandidates p vs)) e
      have hprice := requirements_price P problem p deps.requirements
      refine ((hnames.trans (hrequirements _)).trans (hconstrains _)).mono ?_
      simp only [List.length_append, List.map_const', List.sum_replicate, smul_eq_mul, mul_one]
      omega

/-- The candidates of a package are listed for it. -/
theorem costs_onCandidatesAvailable (enc : Encoder N S F) {name : N} (hname : ReachableName P problem name) :
    Costs P problem U 0 enc (enc.onCandidatesAvailable P name) := by
  obtain ⟨p, vs, hp, hvs, rfl⟩ := hname
  have hlisted : ∀ x, Lists P (P.versionSetName vs) x → Reachable P problem (.solvable x) :=
    fun x hx => .listed hp hvs hx
  unfold onCandidatesAvailable
  dsimp only
  generalize hmulti : (if (P.candidatesOf (P.versionSetName vs)).allowMultiple = true then
      { enc with state := { enc.state with
          allowMultipleNames := enc.state.allowMultipleNames ++ [P.versionSetName vs] } }
      else enc) = e
  have hagenda : e.agenda = enc.agenda := by
    rw [← hmulti]
    split <;> rfl
  have hexcluded : ∀ e : Encoder N S F, Costs P problem U 0 e
      ((P.candidatesOf (P.versionSetName vs)).excluded.foldl
        (fun enc e => enc.addExclusionClause (.solvable e.1) e.2) e) := fun e =>
    costs_foldl_free _ (fun e' x hx =>
      costs_addExclusionClause e' (hlisted x.1 (.inr (.inr ⟨x, hx, rfl⟩))) x.2) e
  refine ((costs_of_agenda hagenda).free ?_).free (hexcluded _)
  cases hlocked : (P.candidatesOf (P.versionSetName vs)).locked with
  | none => exact .refl _
  | some locked =>
      have hfirst : Costs P problem U 0 e (e.internSolvable locked).2 :=
        costs_internSolvable e (hlisted locked (.inr (.inl hlocked)))
      refine hfirst.free (costs_foldl_free _ (fun e' x hx => ?_) (e.internSolvable locked).2)
      by_cases hne : x = locked
      · rw [addLockClause, if_pos hne]
        exact .refl _
      · rw [addLockClause_eq P e' locked _ x hne]
        exact (costs_internSolvable e' (hlisted x (.inl hx))).free (costs_of_agenda (agenda_emit P _ _ _ _))

/-- So are the candidates that a constraint excludes. -/
theorem costs_onConstraintCandidatesAvailable (hP : P.WellFormed) (enc : Encoder N S F)
    {p : SolvableIdOrRoot S} {vs : VersionSetId} (hp : Reachable P problem p) (hvs : Mentions P problem p vs) :
    Costs P problem U 0 enc (enc.onConstraintCandidatesAvailable P p vs) := by
  have hlisted : ∀ x ∈ P.nonMatchingCandidates vs, Reachable P problem (.solvable x) :=
    fun x hx => .listed hp hvs (.inl (hP.nonMatching_mem vs x hx))
  rw [onConstraint_eq]
  dsimp only
  refine (costs_internSolvableOrRoot enc hp).free ?_
  generalize (enc.internSolvableOrRoot p).2 = e
  split
  · refine costs_foldl_free _ (fun e' x hx => ?_) e
    rw [addConstrains_eq P]
    exact (costs_internSolvable e' (hlisted x hx)).free (costs_of_agenda (agenda_emit P _ _ _ _))
  · have hlink : ∀ (aux : VariableId) (e : Encoder N S F), Costs P problem U 0 e
        ((P.nonMatchingCandidates vs).foldl (addConstrainsExcluded aux vs) e) := fun aux e =>
      costs_foldl_free _ (fun e' x hx => by
        rw [addConstrainsExcluded_eq P]
        exact (costs_internSolvable e' (hlisted x hx)).free (costs_of_agenda (agenda_emit P _ _ _ _))) e
    have haux : Costs P problem U 0 e (e.constrainsAux vs (P.nonMatchingCandidates vs)).2 := by
      unfold constrainsAux
      split
      · exact .refl _
      · exact hlink e.state.variableMap.origins.length
          ((e.allocVar (.constrainsViolation vs)).setAux vs e.state.variableMap.origins.length)
    exact haux.free (costs_of_agenda (agenda_emit P _ _ _ _))

/-- A deferred disjunct is paid for. -/
theorem costs_pushDeferred (enc : Encoder N S F) (entry : DeferredRequirement S) :
    Costs P problem U (entry.occurrence.price P) enc (enc.pushDeferred entry) := by
  have hperm : (deferredOccurrences (enc.pushDeferred entry).state.deferredRequirements).Perm
      ([entry.occurrence] ++ deferredOccurrences enc.state.deferredRequirements) := by
    obtain ⟨new, hnew, hmoved⟩ := (moves_pushDeferred P problem enc entry).moved
    obtain rfl : new = [] := List.self_eq_append_right.mp hnew
    refine List.perm_iff_count.mpr fun o => ?_
    have hcount := List.perm_iff_count.mp hmoved o
    simp only [ledger, Ledger.waiting, List.count_append, List.flatMap_nil, List.count_nil] at hcount ⊢
    show List.count o (deferredOccurrences (enc.state.pushDeferred entry).deferredRequirements) = _
    omega
  refine ⟨fun h => ⟨h.solvables, h.packages, h.known⟩, ?_⟩
  have hload := Agenda.load_deferred P problem U (a := enc.agenda) hperm
  rw [List.map_singleton, List.sum_singleton] at hload
  exact hload.le

/-- **The disjuncts of a condition** are deferred, or the requirement is encoded. -/
theorem costs_onConditionDataAvailable (enc : Encoder N S F) {p : SolvableIdOrRoot S}
    {r : ConditionalRequirement} {c : ConditionId} (hp : Reachable P problem p) (hr : Requires P problem p r) :
    Costs P problem U ((Task.conditionData p r c : Task N S).price P problem - 1) enc
      (enc.onConditionDataAvailable P p r c) := by
  have hnames : ∀ e : Encoder N S F, Costs P problem U (r.requirement.versionSets P).length e
      (((r.requirement.versionSets P).map P.versionSetName).foldl queuePackage e) := fun e =>
    costs_queuePackages _ (fun vs hvs => ⟨p, vs, hp, .inl ⟨r, hr, .inl hvs⟩, rfl⟩) e
  rw [onConditionDataAvailable_eq]
  unfold Task.price Requirement.price
  dsimp only
  generalize hdnf : (P.resolveCondition c).toDnf = dnf
  have hdefer : Costs P problem U _ enc _ := costs_foldl
    (dnf.filter fun conj => !firesNow P enc.state conj)
    (fun e conj _ => costs_pushDeferred e (deferredDisjunct P p r c conj)) enc
  have hsum : ((dnf.filter fun conj => !firesNow P enc.state conj).map fun conj =>
      (deferredDisjunct P p r c conj).occurrence.price P).sum ≤
      dnf.length * ((r.requirement.versionSets P).length + 1 + 2) := by
    show (List.map (fun _ => (r.requirement.versionSets P).length + 1 + 2) _).sum ≤ _
    rw [List.map_const', List.sum_replicate, smul_eq_mul]
    exact Nat.mul_le_mul_right _ (List.length_filter_le _ _)
  generalize hl : ((dnf.filter fun conj => !firesNow P enc.state conj).map fun conj =>
    (deferredDisjunct P p r c conj).occurrence.price P).sum = paid at hdefer hsum
  split
  · exact hdefer.mono (by omega)
  · refine ((hdefer.trans (hnames _)).trans (costs_queueTask _ _)).mono ?_
    simp only [Task.price]
    omega

/-- The conjuncts that are missing are solvables of packages that the condition mentions. -/
theorem costs_disjunctLiterals (l : List (DisjunctionComplement S)) (enc : Encoder N S F)
    (hl : ∀ vs xs, .solvables vs xs ∈ l → ∀ x ∈ xs, Reachable P problem (.solvable x)) :
    Costs P problem U 0 enc (enc.disjunctLiterals P l).2 := by
  induction l generalizing enc with
  | nil => exact .refl _
  | cons c l ih =>
      have hfirst : Costs P problem U 0 enc (enc.complementLiterals P c).2 := by
        cases c with
        | solvables vs xs =>
            refine (costs_internSolvables xs enc (hl vs xs List.mem_cons_self)).free (costs_of_agenda ?_)
            exact agenda_foldl (fun e v => agenda_registerForbidTarget e (P.versionSetName vs) v) _
              (enc.internSolvables xs).2
        | empty vs => exact costs_of_agenda (agenda_atLeastOneVariable enc (P.versionSetName vs))
      exact hfirst.free (ih (enc.complementLiterals P c).2 fun vs xs h => hl vs xs (List.mem_cons_of_mem _ h))

theorem costs_allocDisjunctions (c : ConditionId) (dnf : List (List (DisjunctionComplement S)))
    (enc : Encoder N S F) (hdnf : ∀ disjunct ∈ dnf, ∀ vs xs, .solvables vs xs ∈ disjunct → ∀ x ∈ xs,
      Reachable P problem (.solvable x)) : Costs P problem U 0 enc (allocDisjunctions P c enc dnf).2 := by
  induction dnf generalizing enc with
  | nil => exact .refl _
  | cons disjunct dnf ih =>
      have hfirst : Costs P problem U 0 enc
          ((enc.disjunctLiterals P disjunct).2.addDisjunction ⟨(enc.disjunctLiterals P disjunct).1, c⟩) :=
        (costs_disjunctLiterals disjunct enc (hdnf disjunct List.mem_cons_self)).free (costs_of_agenda rfl)
      exact hfirst.free (ih _ fun d hd => hdnf d (List.mem_cons_of_mem _ hd))

/-- What is missing in a disjunct of the condition can be reached. -/
theorem reachable_complement (hP : P.WellFormed) {p : SolvableIdOrRoot S} {r : ConditionalRequirement}
    {c : ConditionId} {conj : List VersionSetId} (hp : Reachable P problem p) (hr : Requires P problem p r)
    (hc : r.condition = some c) (hconj : conj ∈ (P.resolveCondition c).toDnf) {vs : VersionSetId} {xs : List S}
    (h : .solvables vs xs ∈ conj.map (complementOf P)) {x : S} (hx : x ∈ xs) :
    Reachable P problem (.solvable x) := by
  obtain ⟨vs', hvs', heq⟩ := List.mem_map.mp h
  unfold complementOf at heq
  dsimp only at heq
  split at heq
  · cases heq
  · cases heq
    exact .listed hp (.inl ⟨r, hr, .inr ⟨c, hc, conj, hconj, hvs'⟩⟩) (.inl (hP.nonMatching_mem _ x hx))

/-- **The candidates of a requirement** are free: what is prefetched was accounted for. -/
theorem costs_onRequirementCandidatesAvailable (hP : P.WellFormed)
    (hU : ∀ p, Reachable P problem p → p ∈ U) {ordered : Prop} (enc : Encoder N S F) (available : S → Bool)
    {p : SolvableIdOrRoot S} {r : ConditionalRequirement}
    {condition : Option (ConditionId × List (List (DisjunctionComplement S)))} (hp : Reachable P problem p)
    (htask : TaskOk P problem ordered enc (.requirementCandidates p r condition)) :
    Costs P problem U 0 enc (enc.onRequirementCandidatesAvailable P available p r condition) := by
  obtain ⟨hr, -, -, hsome⟩ := htask
  have hlisted : ∀ vs ∈ r.requirement.versionSets P, ∀ x ∈ P.sortedCandidates vs,
      Reachable P problem (.solvable x) := fun vs hvs x hx =>
    .listed hp (.inl ⟨r, hr.1, .inl hvs⟩) (.inl (hP.matching_mem vs x (hP.mem_sortedCandidates.mp hx)))
  rw [onRequirementCandidatesAvailable_eq]
  dsimp only
  have hcandidates : ∀ xs ∈ (r.requirement.versionSets P).map P.sortedCandidates, ∀ x ∈ xs,
      Reachable P problem (.solvable x) := by
    intro xs hxs x hx
    obtain ⟨vs, hvs, rfl⟩ := List.mem_map.mp hxs
    exact hlisted vs hvs x hx
  generalize (r.requirement.versionSets P).map P.sortedCandidates = candidates at hcandidates ⊢
  refine (costs_internSolvableOrRoot enc hp).free ?_
  generalize (enc.internSolvableOrRoot p).2 = e₁
  refine (costs_internCandidates candidates e₁ hcandidates).free ?_
  generalize e₁.internCandidates candidates = c
  -- registering candidates is free, and so is prefetching them
  have hregister := agenda_foldl (fun (e : Encoder N S F) (c : S × VariableId) =>
    agenda_registerForbidTarget e (P.solvableName c.1) c.2) (candidates.flatten.zip c.1.flatten) c.2
  refine (costs_of_agenda hregister).free ?_
  generalize (candidates.flatten.zip c.1.flatten).foldl
    (fun (enc : Encoder N S F) (c : S × VariableId) => enc.registerForbidTarget (P.solvableName c.1) c.2) c.2 = e₂
  have hprefetch : Costs P problem U 0 e₂ (e₂.prefetch available candidates.flatten) := by
    refine costs_foldl_free _ (fun e x hx => ?_) e₂
    obtain ⟨xs, hxs, hx⟩ := List.mem_flatten.mp hx
    split
    · exact costs_queueSolvable hU e (hcandidates xs hxs x hx)
    · exact .refl _
  refine hprefetch.free ?_
  generalize e₂.prefetch available candidates.flatten = e₃
  have hids : Costs P problem U 0 e₃ (e₃.conditionIds P condition).2 := by
    cases condition with
    | none => exact .refl _
    | some cd =>
        obtain ⟨cond, dnf⟩ := cd
        refine costs_allocDisjunctions cond dnf e₃ fun disjunct hd vs xs hmem x hx => ?_
        obtain ⟨hc, hdnf⟩ := hsome cond dnf rfl
        obtain ⟨conj, hconj, rfl, -⟩ := hdnf disjunct hd
        exact reachable_complement hP hp hr.1 hc hconj hmem hx
  refine hids.free (costs_of_agenda ?_)
  exact agenda_foldl (agenda_encodeRequirement _ r.requirement c.1) _ (e₃.conditionIds P condition).2

/-- **Processing a task lowers what is left.** -/
theorem load_onTaskResult (hP : P.WellFormed) (hU : ∀ p, Reachable P problem p → p ∈ U) {ordered : Prop}
    (available : S → Bool) {i : Nat} {t : Task N S} (hi : enc.pending[i]? = some t)
    (htask : TaskOk P problem ordered { enc with pending := enc.pending.eraseIdx i } t)
    (hwithin : enc.agenda.Within P problem) :
    let enc' := onTaskResult P problem available { enc with pending := enc.pending.eraseIdx i } t
    enc'.agenda.Within P problem ∧ enc'.agenda.load P problem U < enc.agenda.load P problem U := by
  have hpaid : Agenda.load P problem U (Encoder.agenda { enc with pending := enc.pending.eraseIdx i }) +
      t.price P problem = enc.agenda.load P problem U := Agenda.load_eraseIdx enc.agenda hi
  have hwithin' : (Encoder.agenda { enc with pending := enc.pending.eraseIdx i }).Within P problem :=
    ⟨hwithin.solvables, hwithin.packages, hwithin.known⟩
  generalize ({ enc with pending := enc.pending.eraseIdx i } : Encoder N S F) = e at *
  have hpos := t.price_pos P problem
  have hcosts : Costs P problem U (t.price P problem - 1) e (onTaskResult P problem available e t) := by
    cases t with
    | dependencies p => exact costs_onDependenciesAvailable e (hwithin'.solvables p htask)
    | candidates name => exact costs_onCandidatesAvailable e (hwithin'.packages name htask)
    | conditionData p r c =>
        exact costs_onConditionDataAvailable e (hwithin'.solvables p htask.1.2) htask.1.1
    | requirementCandidates p r condition =>
        exact costs_onRequirementCandidatesAvailable hP hU e available (hwithin'.solvables p htask.1.2) htask
    | constraintCandidates p vs =>
        exact costs_onConstraintCandidatesAvailable hP e (hwithin'.solvables p htask.2) (.inr htask.1)
  have hload := hcosts.load
  exact ⟨hcosts.within hwithin', by omega⟩

/-! ### Calls -/

theorem costs_queueSolvables (hU : ∀ p, Reachable P problem p → p ∈ U) (l : List (SolvableIdOrRoot S))
    (hl : ∀ p ∈ l, Reachable P problem p) (enc : Encoder N S F) :
    Costs P problem U 0 enc (l.foldl queueSolvable enc) :=
  costs_foldl_free l (fun e p hp => costs_queueSolvable hU e (hl p hp)) enc

/-- Queueing a solvable that is new lowers what is left. -/
theorem load_queueSolvables (hU : ∀ p, Reachable P problem p → p ∈ U) (l : List (SolvableIdOrRoot S))
    (hl : ∀ p ∈ l, Reachable P problem p) (enc : Encoder N S F) {p : SolvableIdOrRoot S} (hp : p ∈ l)
    (hnew : p ∉ enc.state.clausesAddedForSolvable) :
    (l.foldl queueSolvable enc).agenda.load P problem U + 2 ≤ enc.agenda.load P problem U := by
  induction l generalizing enc with
  | nil => cases hp
  | cons q l ih =>
      have hrest : ∀ r ∈ l, Reachable P problem r := fun r hr => hl r (List.mem_cons_of_mem _ hr)
      rw [List.foldl_cons]
      by_cases hq : q ∈ enc.state.clausesAddedForSolvable
      · have hsame : enc.queueSolvable q = enc := if_pos hq
        rw [hsame]
        refine ih hrest enc ((List.mem_cons.mp hp).resolve_left ?_) hnew
        rintro rfl
        exact hnew hq
      · have hload := (costs_queueSolvables hU l hrest (enc.queueSolvable q)).load
        have hfirst : (enc.queueSolvable q).agenda.load P problem U + 2 ≤ enc.agenda.load P problem U := by
          have hnew' : enc.queueSolvable q = _ := if_neg hq
          rw [hnew']
          exact Agenda.load_solvable P problem enc.agenda (hU q (hl q List.mem_cons_self)) hq
        omega

/-- What fired is queued at the price of its requirement. -/
theorem costs_queueDeferredRequirement (enc : Encoder N S F) {entry : DeferredRequirement S}
    (hnames : ∀ vs ∈ entry.requirement.requirement.versionSets P, ReachableName P problem (P.versionSetName vs)) :
    Costs P problem U (entry.requirement.requirement.price P) enc (queueDeferredRequirement P enc entry) :=
  (costs_queuePackages _ hnames enc).trans (costs_queueTask _ (.requirementCandidates entry.solvableId
    entry.requirement (some (entry.condition,
      [entry.disjunct.map fun conjunct => complementOf P conjunct.versionSet]))))

/-- **The start of a call** lowers what is left, if there is something to encode. -/
theorem load_start (hU : ∀ p, Reachable P problem p → p ∈ U) {s : SolverState N S F} {level : Nat}
    {solvables : List (SolvableIdOrRoot S)} {fired : List (DeferredRequirement S)}
    {d : IndexMap ConditionId (List (DeferredRequirement S))}
    (hd : (deferredOccurrences s.deferredRequirements).Perm
      (fired.map DeferredRequirement.occurrence ++ deferredOccurrences d))
    (hsolvables : ∀ p ∈ solvables, Reachable P problem p)
    (hfired : ∀ entry ∈ fired, ∀ vs ∈ entry.requirement.requirement.versionSets P,
      ReachableName P problem (P.versionSetName vs))
    (hwithin : (Encoder.idle level s).agenda.Within P problem) :
    let enc := Encoder.start P { s with deferredRequirements := d } level solvables fired
    enc.agenda.Within P problem ∧ enc.agenda.load P problem U ≤ (Encoder.idle level s).agenda.load P problem U ∧
      ((fired ≠ [] ∨ ∃ p ∈ solvables, p ∉ s.clausesAddedForSolvable) →
        enc.agenda.load P problem U + 2 ≤ (Encoder.idle level s).agenda.load P problem U) := by
  intro enc
  have hwithin' : (Encoder.idle level { s with deferredRequirements := d }).agenda.Within P problem :=
    ⟨hwithin.solvables, hwithin.packages, hwithin.known⟩
  have hdrained := Agenda.load_deferred P problem U
    (a := (Encoder.idle level { s with deferredRequirements := d }).agenda) hd
  have hqueued := costs_queueSolvables hU solvables hsolvables (Encoder.idle level { s with deferredRequirements := d })
  have hcosts := costs_foldl (U := U) fired (fun e entry he => costs_queueDeferredRequirement e (hfired entry he))
    (solvables.foldl queueSolvable (Encoder.idle level { s with deferredRequirements := d }))
  have hprice : (fired.map fun entry => entry.requirement.requirement.price P).sum + 2 * fired.length =
      ((fired.map DeferredRequirement.occurrence).map (Occurrence.price P)).sum := by
    rw [List.map_map]
    show _ = (fired.map fun entry => entry.requirement.requirement.price P + 2).sum
    rw [List.sum_map_add, List.map_const', List.sum_replicate, smul_eq_mul, Nat.mul_comm]
  have h₁ := hqueued.load
  have h₂ := hcosts.load
  have hidle : Agenda.load P problem U (Encoder.idle level s).agenda =
      (Encoder.idle level { s with deferredRequirements := d }).agenda.load P problem U +
        ((fired.map DeferredRequirement.occurrence).map (Occurrence.price P)).sum := hdrained
  have hstart : enc = fired.foldl (queueDeferredRequirement P)
    (solvables.foldl queueSolvable (Encoder.idle level { s with deferredRequirements := d })) := rfl
  rw [← hstart] at h₂ hcosts
  refine ⟨hcosts.within (hqueued.within hwithin'), by omega, fun hsome => ?_⟩
  rcases hsome with hfired | ⟨p, hp, hnew⟩
  · have hlen := List.length_pos_iff.mpr hfired
    omega
  · have hlower := load_queueSolvables hU solvables hsolvables
      (Encoder.idle level { s with deferredRequirements := d }) hp hnew
    omega

end Handlers

end Encoder

end Resolvo
