import Resolvo.Correctness.EncoderCall
import Resolvo.Correctness.Exact

/-!
# `Correctness.Ledger` — where the disjuncts of conditional requirements are

A conditional requirement is encoded disjunct by disjunct: while its task waits every disjunct is owed, then
it is deferred or turned into a clause. The ledger of an encoder lists what is owed, deferred and encoded;
most operations leave it alone, and for the others there is a lemma that says what moves.
-/

set_option linter.unusedSectionVars false

namespace Resolvo

open Sat

variable {N S F : Type} [DecidableEq N] [DecidableEq S]

/-! ## Occurrences -/

/-- One disjunct of a conditional requirement of a solvable. -/
structure Occurrence (S : Type) where
  solvable : SolvableIdOrRoot S
  requirement : ConditionalRequirement
  condition : ConditionId
  conjuncts : List VersionSetId
  deriving DecidableEq

def DeferredRequirement.occurrence (entry : DeferredRequirement S) : Occurrence S :=
  ⟨entry.solvableId, entry.requirement, entry.condition, entry.disjunct.map DeferredConjunct.versionSet⟩

def DisjunctionComplement.versionSet : DisjunctionComplement S → VersionSetId
  | .solvables vs _ => vs
  | .empty vs => vs

section Occurrences

variable (P : DependencyProvider N S) (problem : Problem S)

/-- The disjuncts of a condition. -/
def conditionOccurrences (p : SolvableIdOrRoot S) (r : ConditionalRequirement) (c : ConditionId) :
    List (Occurrence S) :=
  (P.resolveCondition c).toDnf.map fun conjuncts => ⟨p, r, c, conjuncts⟩

def requirementOccurrences (p : SolvableIdOrRoot S) (r : ConditionalRequirement) : List (Occurrence S) :=
  match r.condition with
  | none => []
  | some c => conditionOccurrences P p r c

/-- The disjuncts of all conditional requirements that a solvable declares. -/
def declaredOccurrences (p : SolvableIdOrRoot S) : List (Occurrence S) :=
  match P.dependenciesOf problem p with
  | .unknown _ => []
  | .known deps => deps.requirements.flatMap (requirementOccurrences P p)

/-- The disjuncts a task is still to defer or encode. -/
def Task.occurrences : Task N S → List (Occurrence S)
  | .dependencies p => declaredOccurrences P problem p
  | .conditionData p r c => conditionOccurrences P p r c
  | .requirementCandidates p r (some (c, dnf)) =>
      dnf.map fun disjunct => ⟨p, r, c, disjunct.map DisjunctionComplement.versionSet⟩
  | .requirementCandidates _ _ none | .candidates _ | .constraintCandidates _ _ => []

end Occurrences

/-! ## Conditional clauses -/

/-- A requires clause under a condition: its parent, its disjunct and its requirement. -/
abbrev ConditionalEntry := VariableId × DisjunctionId × Requirement

def conditionalEntry : Clause N → Option ConditionalEntry
  | .requires parent (some d) r => some (parent, d, r)
  | _ => none

/-- The conditional clauses of the database, in the order they were added. -/
def SolverState.conditionalEntries (s : SolverState N S F) : List ConditionalEntry :=
  s.clauses.filterMap conditionalEntry

theorem conditionalEntry_eq_none {kind : Clause N} (h : ¬ kind.IsConditional) : conditionalEntry kind = none := by
  cases kind with
  | requires parent condition r =>
      cases condition with
      | none => rfl
      | some d => exact absurd trivial h
  | _ => rfl

/-- The disjuncts that wait for their condition to hold. -/
def deferredOccurrences (deferred : IndexMap ConditionId (List (DeferredRequirement S))) :
    List (Occurrence S) :=
  deferred.entries.flatMap fun e => e.2.map DeferredRequirement.occurrence

/-! ## The ledger -/

/-- What an encoder knows about conditional requirements. -/
structure Ledger (S : Type) where
  solvables : List (SolvableIdOrRoot S)
  owed : List (Occurrence S)
  deferred : IndexMap ConditionId (List (DeferredRequirement S))
  disjunctions : List Disjunction
  conditional : List ConditionalEntry

namespace Ledger

section Moves

variable (P : DependencyProvider N S) (problem : Problem S)

/-- The disjuncts that are deferred. -/
def waiting (l : Ledger S) : List (Occurrence S) := deferredOccurrences l.deferred

/-- Solvables are entered once, deferred disjuncts are entered under their condition, and every disjunction
    has exactly one clause. -/
structure WF (l : Ledger S) : Prop where
  solvables : l.solvables.Nodup
  keys : l.deferred.keys.Nodup
  keyed : ∀ e ∈ l.deferred.entries, ∀ entry ∈ e.2, entry.condition = e.1
  conditional : l.conditional.map (fun e => e.2.1) = List.range l.disjunctions.length

/-- **What moves**: the disjuncts that were taken and those of solvables that are new are owed, deferred or
    encoded afterwards. -/
structure Moves (l l' : Ledger S) (taken encoded : List (Occurrence S)) : Prop where
  wf : l.WF → l'.WF
  count : l'.disjunctions.length = l.disjunctions.length + encoded.length
  entries : ∃ more, l'.conditional = l.conditional ++ more ∧ more.length = encoded.length
  moved : ∃ new, l'.solvables = l.solvables ++ new ∧
    (l'.owed ++ (l'.waiting ++ encoded)).Perm
      (new.flatMap (declaredOccurrences P problem) ++ (taken ++ (l.owed ++ l.waiting)))
  /-- What is deferred stays in its place. -/
  kept : ∀ c, l.deferred.getD c [] <+: l'.deferred.getD c []

variable {P problem} {l l' l'' : Ledger S} {taken taken' encoded encoded' : List (Occurrence S)}

theorem Moves.refl (l : Ledger S) : Moves P problem l l [] [] where
  wf := id
  count := rfl
  entries := ⟨[], by simp, rfl⟩
  moved := ⟨[], by simp, by simp⟩
  kept := fun _ => List.prefix_refl _

theorem Moves.of_eq (h : l' = l) : Moves P problem l l' [] [] := by
  rw [h]
  exact .refl l

theorem Moves.trans (h : Moves P problem l l' taken encoded) (h' : Moves P problem l' l'' taken' encoded') :
    Moves P problem l l'' (taken' ++ taken) (encoded ++ encoded') where
  wf := h'.wf ∘ h.wf
  count := by rw [h'.count, h.count, List.length_append, Nat.add_assoc]
  entries := by
    obtain ⟨more, hmore, hlength⟩ := h.entries
    obtain ⟨more', hmore', hlength'⟩ := h'.entries
    exact ⟨more ++ more', by rw [hmore', hmore, List.append_assoc], by simp [hlength, hlength']⟩
  moved := by
    obtain ⟨new, hnew, hmoved⟩ := h.moved
    obtain ⟨new', hnew', hmoved'⟩ := h'.moved
    refine ⟨new ++ new', by rw [hnew', hnew, List.append_assoc], ?_⟩
    rw [List.flatMap_append]
    refine List.perm_iff_count.mpr fun o => ?_
    have h₁ := List.perm_iff_count.mp hmoved o
    have h₂ := List.perm_iff_count.mp hmoved' o
    simp only [List.count_append] at h₁ h₂ ⊢
    omega
  kept := fun c => (h.kept c).trans (h'.kept c)

theorem Moves.perm (h : Moves P problem l l' taken encoded) (hp : taken.Perm taken') :
    Moves P problem l l' taken' encoded where
  wf := h.wf
  count := h.count
  entries := h.entries
  moved := by
    obtain ⟨new, hnew, hmoved⟩ := h.moved
    exact ⟨new, hnew, hmoved.trans (.append_left _ (hp.append_right _))⟩
  kept := h.kept

/-- What moved is accounted for, if what was taken was owed before. -/
theorem Moves.balanced (h : Moves P problem l l' taken encoded) {labels : List (Occurrence S)}
    (hl : (l.solvables.flatMap (declaredOccurrences P problem)).Perm
      (taken ++ (l.owed ++ (l.waiting ++ labels)))) :
    (l'.solvables.flatMap (declaredOccurrences P problem)).Perm
      (l'.owed ++ (l'.waiting ++ (labels ++ encoded))) := by
  obtain ⟨new, hnew, hmoved⟩ := h.moved
  rw [hnew, List.flatMap_append]
  refine List.perm_iff_count.mpr fun o => ?_
  have h₁ := List.perm_iff_count.mp hmoved o
  have h₂ := List.perm_iff_count.mp hl o
  simp only [List.count_append] at h₁ h₂ ⊢
  omega

end Moves

/-! ### Draining -/

/-- What draining does to the deferred disjuncts: what fired is taken out, and the rest stays in order. -/
structure Drains (deferred deferred' : IndexMap ConditionId (List (DeferredRequirement S)))
    (fired : List (DeferredRequirement S)) : Prop where
  keys : deferred'.keys.Nodup
  keyed : (∀ e ∈ deferred.entries, ∀ entry ∈ e.2, entry.condition = e.1) →
    ∀ e ∈ deferred'.entries, ∀ entry ∈ e.2, entry.condition = e.1
  moved : (deferredOccurrences deferred).Perm
    (fired.map DeferredRequirement.occurrence ++ deferredOccurrences deferred')
  order : ∀ c, (deferred'.getD c []).Sublist (deferred.getD c [])

theorem Drains.refl {deferred : IndexMap ConditionId (List (DeferredRequirement S))}
    (h : deferred.keys.Nodup) : Drains deferred deferred [] :=
  ⟨h, id, .refl _, fun _ => .refl _⟩

theorem Drains.trans {d d' d'' : IndexMap ConditionId (List (DeferredRequirement S))}
    {fired fired' : List (DeferredRequirement S)} (h : Drains d d' fired) (h' : Drains d' d'' fired') :
    Drains d d'' (fired ++ fired') where
  keys := h'.keys
  keyed := h'.keyed ∘ h.keyed
  moved := by
    rw [List.map_append, List.append_assoc]
    exact h.moved.trans (h'.moved.append_left _)
  order := fun c => (h'.order c).trans (h.order c)

/-- Draining a condition takes out the entries that hold. -/
theorem drains_drainFiredDeferred {s : SolverState N S F} (hkeys : s.deferredRequirements.keys.Nodup)
    (c : ConditionId) :
    ∃ d, (s.drainFiredDeferred c).2 = { s with deferredRequirements := d } ∧
      Drains s.deferredRequirements d (s.drainFiredDeferred c).1 := by
  simp only [SolverState.drainFiredDeferred]
  split
  · exact ⟨_, rfl, .refl hkeys⟩
  · next entries hget =>
      refine ⟨_, rfl, ?_⟩
      have hsplit : (entries.map DeferredRequirement.occurrence).Perm
          ((entries.filter s.deferredHolds).map DeferredRequirement.occurrence ++
            (entries.filter fun e => !s.deferredHolds e).map DeferredRequirement.occurrence) := by
        rw [← List.map_append]
        exact ((List.filter_append_perm s.deferredHolds entries).map _).symm
      split
      · next hempty =>
          -- every entry of the condition fired
          have hperm := IndexMap.swapRemove_perm hget
          refine ⟨IndexMap.keys_swapRemove_nodup hkeys hget,
            fun h e he => h e (IndexMap.mem_swapRemove he), ?_, fun c' => ?_⟩
          · rw [List.isEmpty_iff.mp hempty, List.map_nil, List.append_nil] at hsplit
            refine (hperm.flatMap_right _).trans ?_
            rw [List.flatMap_cons]
            exact hsplit.append_right _
          · rw [IndexMap.getD, IndexMap.get?_swapRemove hkeys hget]
            split
            · exact List.nil_sublist _
            · exact List.Sublist.refl _
      · obtain ⟨rest, h₁, h₂⟩ := IndexMap.upsert_perm hget
        refine ⟨IndexMap.keys_insert_nodup hkeys _ _, fun h e he entry hentry => ?_, ?_, fun c' => ?_⟩
        · rcases IndexMap.mem_insert he with rfl | he
          · exact h _ (IndexMap.mem_of_get? hget) entry (List.mem_filter.mp hentry).1
          · exact h e he entry hentry
        · refine (h₁.flatMap_right _).trans ?_
          rw [List.flatMap_cons]
          refine (hsplit.append_right _).trans ?_
          rw [List.append_assoc]
          refine List.Perm.append_left _ ?_
          have h := (h₂ (entries.filter fun e => !s.deferredHolds e)).flatMap_right
            fun e => e.2.map DeferredRequirement.occurrence
          rw [List.flatMap_cons] at h
          exact h.symm
        · rw [IndexMap.getD_insert]
          split
          · next hc =>
              subst hc
              rw [IndexMap.getD, hget]
              exact List.filter_sublist
          · exact List.Sublist.refl _

theorem drains_drainAll {s : SolverState N S F} (hkeys : s.deferredRequirements.keys.Nodup)
    (conditions : List ConditionId) :
    ∃ d, (Config.drainAll s conditions).2 = { s with deferredRequirements := d } ∧
      Drains s.deferredRequirements d (Config.drainAll s conditions).1 := by
  induction conditions generalizing s with
  | nil => exact ⟨_, rfl, .refl hkeys⟩
  | cons c rest ih =>
      obtain ⟨d, hd, hdrains⟩ := drains_drainFiredDeferred hkeys c
      simp only [Config.drainAll]
      generalize s.drainFiredDeferred c = r at hd hdrains ⊢
      obtain ⟨fired, s'⟩ := r
      dsimp only at hd hdrains ⊢
      subst hd
      obtain ⟨d', hd', hdrains'⟩ := ih (s := { s with deferredRequirements := d }) hdrains.keys
      exact ⟨d', hd', hdrains.trans hdrains'⟩

end Ledger

namespace Encoder

section Frame

variable (P : DependencyProvider N S) (problem : Problem S)

def ledger (enc : Encoder N S F) : Ledger S where
  solvables := enc.state.clausesAddedForSolvable
  owed := enc.pending.flatMap (Task.occurrences P problem)
  deferred := enc.state.deferredRequirements
  disjunctions := enc.state.disjunctions
  conditional := enc.state.conditionalEntries

variable {P problem}

variable (P problem) in
theorem ledger_foldl {α : Type} {f : Encoder N S F → α → Encoder N S F}
    (hf : ∀ enc a, (f enc a).ledger P problem = enc.ledger P problem) (l : List α) (enc : Encoder N S F) :
    (l.foldl f enc).ledger P problem = enc.ledger P problem := by
  induction l generalizing enc with
  | nil => rfl
  | cons a l ih => exact (ih (f enc a)).trans (hf enc a)

/-- A clause that is not conditional is not entered. -/
theorem ledger_addClause (enc : Encoder N S F) (watched : Option Watches) {kind : Clause N}
    (hkind : ¬ kind.IsConditional) :
    (enc.addClause watched kind).2.ledger P problem = enc.ledger P problem := by
  simp [ledger, addClause, SolverState.addClause, SolverState.conditionalEntries, List.filterMap_append,
    conditionalEntry_eq_none hkind]

@[simp] theorem ledger_decide (enc : Encoder N S F) (d : Decision) :
    (enc.decide d).ledger P problem = enc.ledger P problem := by
  unfold decide
  split <;> rfl

@[simp] theorem ledger_flagConflict (enc : Encoder N S F) (id : ClauseId) :
    (enc.flagConflict id).ledger P problem = enc.ledger P problem := rfl

@[simp] theorem ledger_internSolvable (enc : Encoder N S F) (x : S) :
    (enc.internSolvable x).2.ledger P problem = enc.ledger P problem := rfl

@[simp] theorem ledger_internSolvableOrRoot (enc : Encoder N S F) (p : SolvableIdOrRoot S) :
    (enc.internSolvableOrRoot p).2.ledger P problem = enc.ledger P problem := rfl

@[simp] theorem ledger_internSolvables (enc : Encoder N S F) (l : List S) :
    (enc.internSolvables l).2.ledger P problem = enc.ledger P problem := rfl

@[simp] theorem ledger_internCandidates (enc : Encoder N S F) (l : List (List S)) :
    (enc.internCandidates l).2.ledger P problem = enc.ledger P problem := by
  induction l generalizing enc with
  | nil => rfl
  | cons xs l ih => exact ih (enc.internSolvables xs).2

@[simp] theorem ledger_registerForbidTarget (enc : Encoder N S F) (name : N) (v : VariableId) :
    (enc.registerForbidTarget name v).ledger P problem = enc.ledger P problem := by
  unfold registerForbidTarget
  split
  · rfl
  · split <;> rfl

/-- Fetching the candidates of a package owes nothing. -/
@[simp] theorem ledger_queuePackage (enc : Encoder N S F) (name : N) :
    (enc.queuePackage name).ledger P problem = enc.ledger P problem := by
  unfold queuePackage
  split
  · rfl
  · simp only [ledger, List.flatMap_append, List.flatMap_singleton, Task.occurrences, List.append_nil]
    rfl

@[simp] theorem ledger_queueConstraint (enc : Encoder N S F) (p : SolvableIdOrRoot S) (vs : VersionSetId) :
    (queueConstraint p enc vs).ledger P problem = enc.ledger P problem := by
  simp [ledger, queueConstraint, queueTask, Task.occurrences]

/-- A clause that is not conditional is not entered, whatever is done about it. -/
theorem ledger_emit (enc : Encoder N S F) (watched : Option Watches) {kind : Clause N}
    (hkind : ¬ kind.IsConditional) (outcome : EmitOutcome) :
    (enc.emit P watched kind outcome).ledger P problem = enc.ledger P problem := by
  obtain ⟨q, t, a, flags, panicked, heq⟩ := enc.emit_eq (P := P) watched kind outcome
  rw [heq]
  exact ledger_addClause enc watched hkind

/-! ### Packages -/

theorem ledger_addExclusionClause (enc : Encoder N S F) (p : SolvableIdOrRoot S) (reason : StringId) :
    (enc.addExclusionClause p reason).ledger P problem = enc.ledger P problem := by
  rw [addExclusionClause_eq P]
  exact ledger_emit _ none id _

theorem ledger_addLockClause (locked : S) (lockedVar : VariableId) (enc : Encoder N S F) (other : S) :
    (addLockClause locked lockedVar enc other).ledger P problem = enc.ledger P problem := by
  by_cases h : other = locked
  · rw [addLockClause, if_pos h]
  · rw [addLockClause_eq P enc locked lockedVar other h]
    exact ledger_emit _ _ id _

theorem ledger_onCandidatesAvailable (enc : Encoder N S F) (name : N) :
    (enc.onCandidatesAvailable P name).ledger P problem = enc.ledger P problem := by
  unfold onCandidatesAvailable
  refine (ledger_foldl _ _ (fun e x => ledger_addExclusionClause e _ _) _ _).trans ?_
  have hmultiple : (if (P.candidatesOf name).allowMultiple = true then
      { enc with state := { enc.state with
          allowMultipleNames := enc.state.allowMultipleNames ++ [name] } }
      else enc).ledger P problem = enc.ledger P problem := by
    split <;> rfl
  cases (P.candidatesOf name).locked with
  | none => exact hmultiple
  | some locked =>
      refine Eq.trans (ledger_foldl _ _ (fun e x => ledger_addLockClause locked _ e x) _ _) ?_
      exact (ledger_internSolvable _ locked).trans hmultiple

/-! ### Constraints -/

theorem ledger_addConstrains (v : VariableId) (vs : VersionSetId) (enc : Encoder N S F) (forbidden : S) :
    (addConstrains v vs enc forbidden).ledger P problem = enc.ledger P problem := by
  rw [addConstrains_eq P]
  exact ledger_emit _ _ id _

theorem ledger_addConstrainsExcluded (aux : VariableId) (vs : VersionSetId) (enc : Encoder N S F)
    (forbidden : S) : (addConstrainsExcluded aux vs enc forbidden).ledger P problem = enc.ledger P problem := by
  rw [addConstrainsExcluded_eq P]
  exact ledger_emit _ _ id _

theorem ledger_constrainsAux (enc : Encoder N S F) (vs : VersionSetId) (candidates : List S) :
    (enc.constrainsAux vs candidates).2.ledger P problem = enc.ledger P problem := by
  unfold constrainsAux
  split
  · rfl
  · exact ledger_foldl _ _ (ledger_addConstrainsExcluded _ vs) candidates _

theorem ledger_onConstraintCandidatesAvailable (enc : Encoder N S F) (p : SolvableIdOrRoot S)
    (vs : VersionSetId) :
    (enc.onConstraintCandidatesAvailable P p vs).ledger P problem = enc.ledger P problem := by
  rw [onConstraint_eq]
  dsimp only
  split
  · exact ledger_foldl _ _ (ledger_addConstrains _ vs) _ _
  · refine (ledger_emit _ _ id _).trans ?_
    exact ledger_constrainsAux _ vs _

/-! ### The end of a call -/

theorem ledger_addForbidClause (name : N) (a b : VariableId) (isPositive : Bool) (enc : Encoder N S F) :
    (addForbidClause name a b isPositive enc).ledger P problem = enc.ledger P problem := by
  rw [addForbidClause_eq P]
  exact ledger_emit _ _ id _

theorem ledger_addPendingForbidClause (enc : Encoder N S F) (target : N × VariableId) :
    (enc.addPendingForbidClause target).ledger P problem = enc.ledger P problem := by
  obtain ⟨name, v⟩ := target
  have hadd : ((enc.state.atMostOneTrackers.getD name {}).add v (addForbidClause name)
      (allocForbidMultiple name) enc).2.2.ledger P problem = enc.ledger P problem :=
    AtMostOnceTracker.add_rule (fun e : Encoder N S F => e.ledger P problem = enc.ledger P problem)
      (fun a b bit e h => (ledger_addForbidClause name a b bit e).trans h) (fun _ h => h) _ v rfl
  rw [addPendingForbidClause_eq]
  dsimp only
  generalize (enc.state.atMostOneTrackers.getD name {}).add v (addForbidClause name)
    (allocForbidMultiple name) enc = r at hadd ⊢
  unfold linkNew
  split
  · split
    · exact (ledger_addClause _ _ id).trans hadd
    · exact hadd
  · exact hadd

theorem ledger_addAtLeastOneClause (atLeastOne : VariableId) (enc : Encoder N S F) (candidate : VariableId) :
    (addAtLeastOneClause atLeastOne enc candidate).ledger P problem = enc.ledger P problem := by
  rw [addAtLeastOneClause_eq P]
  exact ledger_emit _ _ id _

theorem ledger_addAtLeastOnePackage (enc : Encoder N S F) (package : N × VariableId) :
    (enc.addAtLeastOnePackage package).ledger P problem = enc.ledger P problem :=
  ledger_foldl _ _ (ledger_addAtLeastOneClause package.2) _ enc

/-- The end of a call touches no conditional requirement. -/
theorem ledger_finish (enc : Encoder N S F) : enc.finish.ledger P problem = enc.ledger P problem := by
  unfold finish addPendingAtLeastOneClauses addPendingForbidClauses
  refine (ledger_foldl _ _ ledger_addAtLeastOnePackage _ _).trans ?_
  exact ledger_foldl _ _ ledger_addPendingForbidClause _ { enc with pendingForbidClauses := {} }

/-! ### Requirements -/

@[simp] theorem ledger_atLeastOneVariable (enc : Encoder N S F) (name : N) :
    (enc.atLeastOneVariable name).2.ledger P problem = enc.ledger P problem := by
  unfold atLeastOneVariable
  split <;> rfl

theorem ledger_complementLiterals (enc : Encoder N S F) (c : DisjunctionComplement S) :
    (enc.complementLiterals P c).2.ledger P problem = enc.ledger P problem := by
  cases c with
  | solvables vs solvables =>
      exact ledger_foldl _ _ (fun e v => ledger_registerForbidTarget e (P.versionSetName vs) v) _
        (enc.internSolvables solvables).2
  | empty vs => exact ledger_atLeastOneVariable enc (P.versionSetName vs)

variable (P problem) in
theorem ledger_disjunctLiterals (l : List (DisjunctionComplement S)) (enc : Encoder N S F) :
    (enc.disjunctLiterals P l).2.ledger P problem = enc.ledger P problem := by
  induction l generalizing enc with
  | nil => rfl
  | cons c l ih => exact (ih (enc.complementLiterals P c).2).trans (ledger_complementLiterals enc c)

theorem ledger_requiresGate (enc : Encoder N S F) (r : Requirement) (candidates : List (List VariableId)) :
    (enc.requiresGate P r candidates).2.ledger P problem = enc.ledger P problem := by
  cases h : enc.state.requiresAuxVars.get? r with
  | some gate => rw [requiresGate_some P enc r candidates h]
  | none =>
      rw [requiresGate_none P enc r candidates h]
      exact ledger_emit _ _ id _

theorem ledger_addSharedRequires (enc : Encoder N S F) (parent : VariableId) (r : Requirement)
    (candidates : List (List VariableId)) :
    (enc.addSharedRequires P parent r candidates).ledger P problem = enc.ledger P problem := by
  rw [addSharedRequires_eq]
  refine Eq.trans ?_ (ledger_requiresGate enc r candidates)
  exact ledger_emit _ _ id _

/-- A requirement without a condition. -/
theorem ledger_encodeUnconditional (v : VariableId) (r : Requirement) (candidates : List (List VariableId))
    (enc : Encoder N S F) :
    (encodeRequirement P v r candidates enc none).ledger P problem = enc.ledger P problem := by
  rw [encodeRequirement_eq]
  split
  · exact ledger_addSharedRequires enc v r candidates
  · exact ledger_emit _ _ id _

/-! ### What moves -/

/-- A new solvable owes what it declares. -/
theorem moves_queueSolvable (enc : Encoder N S F) (p : SolvableIdOrRoot S) :
    Ledger.Moves P problem (enc.ledger P problem) ((enc.queueSolvable p).ledger P problem) [] [] := by
  unfold queueSolvable
  split
  · exact .refl _
  · next hp =>
      refine ⟨fun h => ⟨?_, h.keys, h.keyed, h.conditional⟩, rfl, ⟨[], (List.append_nil _).symm, rfl⟩,
        ⟨[p], rfl, ?_⟩, fun _ => List.prefix_refl _⟩
      · refine List.nodup_append.mpr ⟨h.solvables, List.nodup_singleton p, ?_⟩
        rintro a ha b hb rfl
        exact hp (List.mem_singleton.mp hb ▸ ha)
      · simp only [ledger, Ledger.waiting, List.flatMap_append, List.flatMap_singleton, Task.occurrences]
        refine List.perm_iff_count.mpr fun o => ?_
        simp only [List.count_append, List.count_nil]
        omega

variable (P problem) in
theorem moves_foldl {α : Type} {f : Encoder N S F → α → Encoder N S F} {taken : α → List (Occurrence S)}
    (hf : ∀ enc a, Ledger.Moves P problem (enc.ledger P problem) ((f enc a).ledger P problem) (taken a) [])
    (l : List α) (enc : Encoder N S F) :
    Ledger.Moves P problem (enc.ledger P problem) ((l.foldl f enc).ledger P problem) (l.flatMap taken) [] := by
  induction l generalizing enc with
  | nil => exact .refl _
  | cons a l ih => exact ((hf enc a).trans (ih (f enc a))).perm List.perm_append_comm

variable (P problem) in
/-- A queued task owes its disjuncts. -/
theorem moves_queueTask (enc : Encoder N S F) (t : Task N S) :
    Ledger.Moves P problem (enc.ledger P problem) ((enc.queueTask t).ledger P problem)
      (t.occurrences P problem) [] := by
  refine ⟨fun (h : (enc.ledger P problem).WF) => ⟨h.solvables, h.keys, h.keyed, h.conditional⟩, rfl,
    ⟨[], (List.append_nil _).symm, rfl⟩, ⟨[], by simp [ledger, queueTask], ?_⟩, fun _ => List.prefix_refl _⟩
  simp only [ledger, queueTask, Ledger.waiting, List.flatMap_append, List.flatMap_singleton]
  refine List.perm_iff_count.mpr fun o => ?_
  simp only [List.count_append, List.count_nil, List.flatMap_nil]
  omega

theorem moves_queueConditionalRequirement (p : SolvableIdOrRoot S) (enc : Encoder N S F)
    (requirement : ConditionalRequirement) :
    Ledger.Moves P problem (enc.ledger P problem) ((queueConditionalRequirement p enc requirement).ledger P problem)
      (requirementOccurrences P p requirement) [] := by
  unfold queueConditionalRequirement requirementOccurrences
  cases requirement.condition with
  | none => exact moves_queueTask P problem enc (.requirementCandidates p requirement none)
  | some c => exact moves_queueTask P problem enc (.conditionData p requirement c)

/-- **The dependencies of a solvable** are owed requirement by requirement. -/
theorem moves_onDependenciesAvailable (enc : Encoder N S F) (p : SolvableIdOrRoot S) :
    Ledger.Moves P problem (enc.ledger P problem) ((enc.onDependenciesAvailable P problem p).ledger P problem)
      (declaredOccurrences P problem p) [] := by
  unfold onDependenciesAvailable declaredOccurrences
  cases P.dependenciesOf problem p with
  | unknown reason => exact .of_eq (ledger_addExclusionClause enc p reason)
  | known deps =>
      dsimp only
      generalize List.map P.versionSetName _ = names
      have hnames := ledger_foldl P problem ledger_queuePackage names enc
      have hmoves := moves_foldl P problem (moves_queueConditionalRequirement p)
        deps.requirements (names.foldl queuePackage enc)
      rw [hnames] at hmoves
      rw [ledger_foldl _ _ fun e (vs : VersionSetId) => ledger_queueConstraint e p vs]
      exact hmoves

@[simp] theorem complementOf_versionSet (vs : VersionSetId) : (complementOf P vs).versionSet = vs := by
  dsimp only [complementOf]
  split <;> rfl

/-- What fired is owed again. -/
theorem moves_queueDeferredRequirement (enc : Encoder N S F) (entry : DeferredRequirement S) :
    Ledger.Moves P problem (enc.ledger P problem) ((queueDeferredRequirement P enc entry).ledger P problem)
      [entry.occurrence] [] := by
  have hnames := ledger_foldl P problem ledger_queuePackage
    ((entry.requirement.requirement.versionSets P).map P.versionSetName) enc
  have hmoves := moves_queueTask P problem
    (((entry.requirement.requirement.versionSets P).map P.versionSetName).foldl queuePackage enc)
    (.requirementCandidates entry.solvableId entry.requirement (some (entry.condition,
      [entry.disjunct.map fun conjunct => complementOf P conjunct.versionSet])))
  rw [hnames] at hmoves
  have heq : Task.occurrences P problem (.requirementCandidates entry.solvableId entry.requirement
      (some (entry.condition, [entry.disjunct.map fun conjunct => complementOf P conjunct.versionSet]))) =
      [entry.occurrence] := by
    simp [Task.occurrences, DeferredRequirement.occurrence, Function.comp_def]
  rw [heq] at hmoves
  exact hmoves

/-! ### Deferring -/

variable (P problem) in
/-- An entry is appended to what waits for its condition. -/
theorem moves_pushDeferred (enc : Encoder N S F) (entry : DeferredRequirement S) :
    Ledger.Moves P problem (enc.ledger P problem)
      (ledger P problem { enc with state := enc.state.pushDeferred entry }) [entry.occurrence] [] where
  wf := fun h => by
    refine ⟨h.solvables, IndexMap.keys_insert_nodup h.keys _ _, fun e he x hx => ?_, h.conditional⟩
    rcases IndexMap.mem_insert he with rfl | he
    · rcases List.mem_append.mp hx with hx | hx
      · obtain ⟨l, hl, hmem, -⟩ := IndexMap.mem_getD_nil hx
        exact h.keyed _ hl x hmem
      · rw [List.mem_singleton.mp hx]
    · exact h.keyed e he x hx
  count := rfl
  entries := ⟨[], (List.append_nil _).symm, rfl⟩
  moved := by
    refine ⟨[], by simp [ledger, SolverState.pushDeferred], ?_⟩
    have hwaiting : (enc.state.deferredRequirements.insert entry.condition
        (enc.state.deferredRequirements.getD entry.condition [] ++ [entry])).entries.flatMap
          (fun e => e.2.map DeferredRequirement.occurrence) |>.Perm
        (entry.occurrence :: enc.state.deferredRequirements.entries.flatMap
          fun e => e.2.map DeferredRequirement.occurrence) := by
      cases hget : enc.state.deferredRequirements.get? entry.condition with
      | none =>
          rw [IndexMap.insert, IndexMap.upsert_of_lookup_none hget]
          simp only [IndexMap.getD, hget, Option.getD_none, List.nil_append, List.flatMap_append,
            List.flatMap_singleton, List.map_cons, List.map_nil]
          exact List.perm_append_singleton _ _
      | some l =>
          obtain ⟨rest, h₁, h₂⟩ := IndexMap.upsert_perm hget
          refine ((h₂ _).flatMap_right _).trans (.trans ?_ (((h₁.flatMap_right _).symm).cons _))
          simp only [IndexMap.getD, hget, Option.getD_some, List.flatMap_cons, List.map_append, List.map_cons,
            List.map_nil]
          refine List.perm_iff_count.mpr fun o => ?_
          simp only [List.count_append, List.count_cons, List.count_nil]
          omega
    simp only [ledger, Ledger.waiting, deferredOccurrences, SolverState.pushDeferred, List.flatMap_nil,
      List.append_nil, List.nil_append]
    exact (hwaiting.append_left _).trans List.perm_middle
  kept := fun c => by
    show enc.state.deferredRequirements.getD c [] <+: (enc.state.deferredRequirements.insert _ _).getD c []
    rw [IndexMap.getD_insert]
    split
    · next h => exact h ▸ List.prefix_append _ _
    · exact List.prefix_refl _

/-- A disjunct is deferred under its condition. -/
theorem moves_deferDisjunct (p : SolvableIdOrRoot S) (r : ConditionalRequirement) (c : ConditionId)
    (enc : Encoder N S F) (conjuncts : List VersionSetId) :
    Ledger.Moves P problem (enc.ledger P problem) ((deferDisjunct P p r c enc conjuncts).ledger P problem)
      [⟨p, r, c, conjuncts⟩] [] := by
  have hmoves := moves_pushDeferred P problem enc ⟨p, r, c, conjuncts.map fun vs =>
    match complementOf P vs with
    | .solvables .. => DeferredConjunct.solvables vs (P.matchingCandidates vs)
    | .empty _ => DeferredConjunct.empty vs (P.matchingCandidates vs)⟩
  have hocc : DeferredRequirement.occurrence ⟨p, r, c, conjuncts.map fun vs =>
      match complementOf P vs with
      | .solvables .. => DeferredConjunct.solvables vs (P.matchingCandidates vs)
      | .empty _ => DeferredConjunct.empty vs (P.matchingCandidates vs)⟩ = ⟨p, r, c, conjuncts⟩ := by
    have hid : ∀ vs, DeferredConjunct.versionSet (match complementOf P vs with
        | .solvables .. => DeferredConjunct.solvables vs (P.matchingCandidates vs)
        | .empty _ => DeferredConjunct.empty vs (P.matchingCandidates vs)) = vs := by
      intro vs
      split <;> rfl
    simp only [DeferredRequirement.occurrence, List.map_map, Function.comp_def, hid, List.map_id']
  rw [hocc] at hmoves
  exact hmoves

/-- The disjuncts that do not hold are deferred, the rest are owed. -/
theorem moves_split (enc : Encoder N S F) (p : SolvableIdOrRoot S) (r : ConditionalRequirement)
    (c : ConditionId) (dnf : List (List VersionSetId)) (holds : List VersionSetId → Bool) :
    Ledger.Moves P problem (enc.ledger P problem)
      (let fired := dnf.filter holds
       let enc := (dnf.filter fun d => !holds d).foldl (deferDisjunct P p r c) enc
       ledger P problem (if fired.isEmpty then enc else
        (((r.requirement.versionSets P).map P.versionSetName).foldl queuePackage enc).queueTask
          (.requirementCandidates p r
            (some (c, fired.map fun conjuncts => conjuncts.map (complementOf P))))))
      (dnf.map fun conjuncts => ⟨p, r, c, conjuncts⟩) [] := by
  have hsplit : (dnf.map fun conjuncts => (⟨p, r, c, conjuncts⟩ : Occurrence S)).Perm
      ((dnf.filter holds).map (fun conjuncts => ⟨p, r, c, conjuncts⟩) ++
        (dnf.filter fun d => !holds d).map fun conjuncts => ⟨p, r, c, conjuncts⟩) := by
    rw [← List.map_append]
    exact ((List.filter_append_perm holds dnf).map _).symm
  have hdefer := moves_foldl P problem (moves_deferDisjunct p r c)
    (dnf.filter fun d => !holds d) enc
  rw [← List.map_eq_flatMap] at hdefer
  dsimp only
  generalize (dnf.filter fun d => !holds d).foldl (deferDisjunct P p r c) enc = e at hdefer ⊢
  split
  · next hfired =>
      rw [List.isEmpty_iff.mp hfired] at hsplit
      exact hdefer.perm hsplit.symm
  · have hnames := ledger_foldl P problem ledger_queuePackage
      ((r.requirement.versionSets P).map P.versionSetName) e
    have hqueue := moves_queueTask P problem
      (((r.requirement.versionSets P).map P.versionSetName).foldl queuePackage e)
      (.requirementCandidates p r (some (c, (dnf.filter holds).map fun conjuncts => conjuncts.map (complementOf P))))
    have hocc : Task.occurrences P problem (.requirementCandidates p r
        (some (c, (dnf.filter holds).map fun conjuncts => conjuncts.map (complementOf P)))) =
        (dnf.filter holds).map fun conjuncts => ⟨p, r, c, conjuncts⟩ := by
      simp [Task.occurrences, Function.comp_def]
    rw [hnames, hocc] at hqueue
    exact (hdefer.trans hqueue).perm hsplit.symm

/-- **A condition** is split: what does not hold is deferred, the rest is owed. -/
theorem moves_onConditionDataAvailable (enc : Encoder N S F) (p : SolvableIdOrRoot S)
    (r : ConditionalRequirement) (c : ConditionId) :
    Ledger.Moves P problem (enc.ledger P problem) ((enc.onConditionDataAvailable P p r c).ledger P problem)
      (conditionOccurrences P p r c) [] :=
  moves_split enc p r c _ _

/-! ### Encoding -/

variable (P problem) in
/-- The dependencies that are prefetched are owed. -/
theorem moves_prefetch (enc : Encoder N S F) (available : S → Bool) (l : List S) :
    Ledger.Moves P problem (enc.ledger P problem) ((enc.prefetch available l).ledger P problem) [] [] ∧
      (enc.prefetch available l).state.disjunctions = enc.state.disjunctions ∧
      (enc.prefetch available l).state.conditionalEntries = enc.state.conditionalEntries := by
  induction l generalizing enc with
  | nil => exact ⟨.refl _, rfl, rfl⟩
  | cons x l ih =>
      obtain ⟨hmoves, hd, hc⟩ := ih (if available x then enc.queueSolvable (.solvable x) else enc)
      have hone : Ledger.Moves P problem (enc.ledger P problem)
            ((if available x then enc.queueSolvable (.solvable x) else enc).ledger P problem) [] [] ∧
          (if available x then enc.queueSolvable (.solvable x) else enc).state.disjunctions =
            enc.state.disjunctions ∧
          (if available x then enc.queueSolvable (.solvable x) else enc).state.conditionalEntries =
            enc.state.conditionalEntries := by
        split
        · refine ⟨moves_queueSolvable enc (.solvable x), ?_⟩
          unfold queueSolvable
          split <;> exact ⟨rfl, rfl⟩
        · exact ⟨.refl _, rfl, rfl⟩
      exact ⟨hone.1.trans hmoves, hd.trans hone.2.1, hc.trans hone.2.2⟩

variable (P problem) in
/-- Each disjunct gets the next disjunction. -/
theorem ledger_allocDisjunctions (c : ConditionId) (l : List (List (DisjunctionComplement S)))
    (enc : Encoder N S F) :
    (allocDisjunctions P c enc l).1 = (List.range' enc.state.disjunctions.length l.length).map some ∧
      ∃ more, more.length = l.length ∧ (allocDisjunctions P c enc l).2.ledger P problem =
        { enc.ledger P problem with disjunctions := enc.state.disjunctions ++ more } := by
  induction l generalizing enc with
  | nil => exact ⟨rfl, [], rfl, by simp [allocDisjunctions, ledger]⟩
  | cons disjunct l ih =>
      have hlits := ledger_disjunctLiterals P problem disjunct enc
      have hsplit : allocDisjunctions P c enc (disjunct :: l) =
          let e := enc.disjunctLiterals P disjunct
          let rest := allocDisjunctions P c (e.2.addDisjunction ⟨e.1, c⟩) l
          (some e.2.state.disjunctions.length :: rest.1, rest.2) := rfl
      rw [hsplit]
      generalize enc.disjunctLiterals P disjunct = e at hlits ⊢
      obtain ⟨literals, e⟩ := e
      obtain ⟨hids, more, hlength, hledger⟩ := ih (e.addDisjunction ⟨literals, c⟩)
      have hsame : e.state.disjunctions = enc.state.disjunctions := congrArg Ledger.disjunctions hlits
      dsimp only at hlits ⊢
      refine ⟨?_, ⟨literals, c⟩ :: more, by rw [List.length_cons, List.length_cons, hlength], ?_⟩
      · rw [hids, List.length_cons, List.range'_succ, List.map_cons, hsame]
        simp [addDisjunction, hsame]
      · rw [hledger, ← hlits]
        simp [addDisjunction, ledger, hsame, SolverState.conditionalEntries]

variable (P problem) in
/-- A requirement under a disjunct gets a clause of its own. -/
theorem ledger_encodeConditional (v : VariableId) (r : Requirement) (candidates : List (List VariableId))
    (enc : Encoder N S F) (d : DisjunctionId) :
    (encodeRequirement P v r candidates enc (some d)).ledger P problem =
      { enc.ledger P problem with conditional := enc.state.conditionalEntries ++ [(v, d, r)] } := by
  rw [encodeRequirement_eq]
  simp only [Option.isNone_some, Bool.false_and, Bool.and_false, Bool.false_eq_true, if_false]
  generalize requiresOutcome v _ _ = outcome
  generalize (WatchedLiterals.requires v r candidates.flatten _ _ : _ × _ × Clause N).1 = watched
  obtain ⟨q, t, a, flags, panicked, heq⟩ :=
    enc.emit_eq (P := P) watched (.requires v (some d) r) outcome
  rw [heq]
  simp [ledger, SolverState.addClause, SolverState.conditionalEntries, List.filterMap_append, conditionalEntry]

variable (P problem) in
theorem ledger_encodeAll (v : VariableId) (r : Requirement) (candidates : List (List VariableId))
    (ids : List DisjunctionId) (enc : Encoder N S F) :
    ((ids.map some).foldl (encodeRequirement P v r candidates) enc).ledger P problem =
      { enc.ledger P problem with
        conditional := enc.state.conditionalEntries ++ ids.map fun d => (v, d, r) } := by
  induction ids generalizing enc with
  | nil => simp [ledger]
  | cons d ids ih =>
      have hone := ledger_encodeConditional P problem v r candidates enc d
      rw [List.map_cons, List.foldl_cons, ih, hone]
      have hentries : (encodeRequirement P v r candidates enc (some d)).state.conditionalEntries =
          enc.state.conditionalEntries ++ [(v, d, r)] := congrArg Ledger.conditional hone
      simp [hentries]

variable (P problem) in
/-- What is done before the clauses of a requirement are added. -/
theorem moves_prepare (enc : Encoder N S F) (available : S → Bool) (p : SolvableIdOrRoot S)
    (candidates : List (List S)) :
    let e := (enc.internSolvableOrRoot p).2.internCandidates candidates
    let e' := ((candidates.flatten.zip e.1.flatten).foldl
      (fun enc c => enc.registerForbidTarget (P.solvableName c.1) c.2) e.2).prefetch available candidates.flatten
    Ledger.Moves P problem (enc.ledger P problem) (e'.ledger P problem) [] [] ∧
      e'.state.disjunctions = enc.state.disjunctions ∧
      e'.state.conditionalEntries = enc.state.conditionalEntries := by
  intro e
  have hregister := ledger_foldl P problem
    (fun (e : Encoder N S F) (c : S × VariableId) => ledger_registerForbidTarget e (P.solvableName c.1) c.2)
    (candidates.flatten.zip e.1.flatten) e.2
  have hintern : e.2.ledger P problem = enc.ledger P problem :=
    (ledger_internCandidates _ candidates).trans (ledger_internSolvableOrRoot enc p)
  rw [hintern] at hregister
  obtain ⟨hmoves, hd, hc⟩ := moves_prefetch P problem
    ((candidates.flatten.zip e.1.flatten).foldl
      (fun enc c => enc.registerForbidTarget (P.solvableName c.1) c.2) e.2) available candidates.flatten
  rw [hregister] at hmoves
  exact ⟨hmoves, hd.trans (congrArg Ledger.disjunctions hregister),
    hc.trans (congrArg Ledger.conditional hregister)⟩

/-- A requirement without a condition moves no disjunct. -/
theorem moves_onRequirementUnconditional (enc : Encoder N S F) (available : S → Bool)
    (p : SolvableIdOrRoot S) (r : ConditionalRequirement) :
    Ledger.Moves P problem (enc.ledger P problem)
      ((enc.onRequirementCandidatesAvailable P available p r none).ledger P problem) [] [] := by
  rw [onRequirementCandidatesAvailable_eq]
  obtain ⟨hprepare, -⟩ := moves_prepare P problem enc available p
    ((r.requirement.versionSets P).map P.sortedCandidates)
  refine hprepare.trans (.of_eq ?_)
  exact ledger_encodeUnconditional _ r.requirement _ _

/-- A clause for each of the disjuncts that are taken. -/
theorem moves_encode {l l' : Ledger S} {more : List Disjunction} {occurrences : List (Occurrence S)}
    {v : VariableId} {r : Requirement} (hlength : more.length = occurrences.length)
    (h : l' = { l with
      disjunctions := l.disjunctions ++ more
      conditional := l.conditional ++ (List.range' l.disjunctions.length more.length).map fun d => (v, d, r) }) :
    Ledger.Moves P problem l l' occurrences occurrences := by
  subst h
  refine ⟨fun h => ⟨h.solvables, h.keys, h.keyed, ?_⟩, by simp [hlength], ⟨_, rfl, by simp [hlength]⟩,
    ⟨[], by simp, ?_⟩, fun _ => List.prefix_refl _⟩
  · simp only [List.map_append, List.map_map, Function.comp_def, List.map_id', h.conditional, List.length_append]
    rw [List.range_eq_range', List.range_eq_range']
    have h := List.range'_append_1 (s := 0) (m := l.disjunctions.length) (n := more.length)
    simpa using h
  · simp only [Ledger.waiting, List.flatMap_nil, List.nil_append]
    refine List.perm_iff_count.mpr fun o => ?_
    simp only [List.count_append]
    omega

/-- **The candidates of a requirement**: the disjuncts that are owed get a clause each. -/
theorem moves_onRequirementCandidatesAvailable (enc : Encoder N S F) (available : S → Bool)
    (p : SolvableIdOrRoot S) (r : ConditionalRequirement) (c : ConditionId)
    (dnf : List (List (DisjunctionComplement S))) :
    Ledger.Moves P problem (enc.ledger P problem)
        ((enc.onRequirementCandidatesAvailable P available p r (some (c, dnf))).ledger P problem)
        (Task.occurrences P problem (.requirementCandidates p r (some (c, dnf))))
        (Task.occurrences P problem (.requirementCandidates p r (some (c, dnf)))) ∧
      (enc.onRequirementCandidatesAvailable P available p r (some (c, dnf))).state.conditionalEntries =
        enc.state.conditionalEntries ++ (List.range' enc.state.disjunctions.length dnf.length).map
          fun d => ((enc.internSolvableOrRoot p).1, d, r.requirement) := by
  rw [onRequirementCandidatesAvailable_eq]
  obtain ⟨hprepare, hd, hc⟩ := moves_prepare P problem enc available p
    ((r.requirement.versionSets P).map P.sortedCandidates)
  dsimp only at hprepare hd hc ⊢
  generalize (r.requirement.versionSets P).map P.sortedCandidates = candidates at hprepare hd hc ⊢
  generalize (enc.internSolvableOrRoot p).1 = v
  generalize (enc.internSolvableOrRoot p).2.internCandidates candidates = e₁ at hprepare hd hc ⊢
  generalize (Encoder.prefetch available _ candidates.flatten : Encoder N S F) = e₂ at hprepare hd hc ⊢
  -- a disjunction and a clause for each disjunct
  obtain ⟨hids, more, hlength, halloc⟩ := ledger_allocDisjunctions P problem c dnf e₂
  have hids : (e₂.conditionIds P (some (c, dnf))).1 = _ := hids
  have halloc : (e₂.conditionIds P (some (c, dnf))).2.ledger P problem = _ := halloc
  generalize e₂.conditionIds P (some (c, dnf)) = e₃ at hids halloc ⊢
  have hencode := ledger_encodeAll P problem v r.requirement e₁.1
    (List.range' e₂.state.disjunctions.length dnf.length) e₃.2
  have hentries : e₃.2.state.conditionalEntries = e₂.state.conditionalEntries :=
    congrArg Ledger.conditional halloc
  rw [hids]
  generalize List.foldl _ _ _ = e₄ at hencode ⊢
  have hledger : (e₄.setCandidates r.requirement e₁.1).ledger P problem = e₄.ledger P problem := rfl
  have hmoves : Ledger.Moves P problem (e₂.ledger P problem) (e₄.ledger P problem)
      (Task.occurrences P problem (.requirementCandidates p r (some (c, dnf))))
      (Task.occurrences P problem (.requirementCandidates p r (some (c, dnf)))) := by
    have hcount : more.length =
        (Task.occurrences P problem (.requirementCandidates p r (some (c, dnf)))).length := by
      simp [Task.occurrences, hlength]
    refine moves_encode (v := v) (r := r.requirement) hcount ?_
    rw [hencode, halloc, hentries, hlength]
    rfl
  refine ⟨?_, ?_⟩
  · rw [hledger]
    exact (hprepare.trans hmoves).perm (by simp)
  · have h := congrArg Ledger.conditional (hledger.trans hencode)
    rw [hentries, hc, hd] at h
    exact h

/-! ### Tasks -/

/-- The disjuncts that a task turns into clauses. -/
def encodedBy (P : DependencyProvider N S) (problem : Problem S) : Task N S → List (Occurrence S)
  | .requirementCandidates p r condition => Task.occurrences P problem (.requirementCandidates p r condition)
  | _ => []

/-- **Processing a task** defers, owes or encodes the disjuncts it owed. -/
theorem moves_onTaskResult (enc : Encoder N S F) (available : S → Bool) (t : Task N S) :
    Ledger.Moves P problem (enc.ledger P problem) ((onTaskResult P problem available enc t).ledger P problem)
      (t.occurrences P problem) (encodedBy P problem t) := by
  cases t with
  | dependencies p => exact moves_onDependenciesAvailable enc p
  | candidates name => exact .of_eq (ledger_onCandidatesAvailable enc name)
  | conditionData p r c => exact moves_onConditionDataAvailable enc p r c
  | requirementCandidates p r condition =>
      cases condition with
      | none => exact moves_onRequirementUnconditional enc available p r
      | some cd => exact (moves_onRequirementCandidatesAvailable enc available p r cd.1 cd.2).1
  | constraintCandidates p vs => exact .of_eq (ledger_onConstraintCandidatesAvailable enc p vs)

/-- **Starting a call** owes what fired. -/
theorem moves_start (state : SolverState N S F) (level : Nat) (solvables : List (SolvableIdOrRoot S))
    (fired : List (DeferredRequirement S)) :
    Ledger.Moves P problem ((Encoder.idle level state).ledger P problem)
      ((Encoder.start P state level solvables fired).ledger P problem)
      (fired.map DeferredRequirement.occurrence) [] := by
  have hsolvables := moves_foldl P problem (fun e p => moves_queueSolvable e p)
    solvables (Encoder.idle level state)
  have hfired := moves_foldl P problem moves_queueDeferredRequirement fired
    (solvables.foldl queueSolvable (Encoder.idle level state))
  rw [← List.map_eq_flatMap] at hfired
  refine (hsolvables.trans hfired).perm ?_
  rw [List.flatMap_eq_nil_iff.mpr fun _ _ => rfl, List.append_nil]

end Frame

end Encoder

end Resolvo
