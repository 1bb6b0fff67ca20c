import Resolvo.Correctness.Conditional

/-!
# `Correctness.Multiples` — packages that allow multiples get no forbid clauses

A candidate is registered for the at-most-one encoding of its package unless the package is known to allow
multiples, and that is known once its candidates were processed. A requirement waits for its packages, but a
condition can fire because of a solvable whose package was never asked for: then the complement registers
candidates of a package nothing is known about.
-/

set_option linter.unusedSectionVars false

namespace Resolvo

open Sat Relation SolverState

variable {N S F : Type} [DecidableEq N] [DecidableEq S]

/-! ## Forbid clauses -/

/-- The package of an at-most-one clause. -/
def Clause.forbidName : Clause N → Option N
  | .forbidMultipleInstances _ _ name => some name
  | _ => none

/-- The package that a complement registers candidates of. -/
def DisjunctionComplement.registered (P : DependencyProvider N S) : DisjunctionComplement S → Option N
  | .solvables vs _ => some (P.versionSetName vs)
  | .empty _ => none

section Unforbidden

variable {P : DependencyProvider N S} {problem : Problem S} {enc enc' enc'' : Encoder N S F} {ready : N → Prop}

/-- Nothing is done about at-most-one: no candidate is registered and no clause is added. -/
structure Encoder.Inert (enc enc' : Encoder N S F) : Prop where
  pending : enc'.pendingForbidClauses = enc.pendingForbidClauses
  names : enc.state.allowMultipleNames ⊆ enc'.state.allowMultipleNames
  clauses : ∀ kind ∈ enc'.state.clauses, kind ∈ enc.state.clauses ∨ kind.forbidName = none

namespace Encoder.Inert

theorem refl (enc : Encoder N S F) : enc.Inert enc := ⟨rfl, fun _ h => h, fun _ h => .inl h⟩

theorem trans (h : enc.Inert enc') (h' : enc'.Inert enc'') : enc.Inert enc'' where
  pending := h'.pending.trans h.pending
  names := fun _ hn => h'.names (h.names hn)
  clauses := fun kind hk => by
    rcases h'.clauses kind hk with hk | hk
    · exact h.clauses kind hk
    · exact .inr hk

theorem foldl {α : Type} {f : Encoder N S F → α → Encoder N S F} (hf : ∀ (enc : Encoder N S F) a, enc.Inert (f enc a))
    (l : List α) (enc : Encoder N S F) : enc.Inert (l.foldl f enc) :=
  List.foldl_rule (Inert enc) l (refl enc) fun e a _ h => h.trans (hf e a)

theorem addClause (enc : Encoder N S F) (watched : Option Watches) {kind : Clause N}
    (hkind : kind.forbidName = none) : enc.Inert (enc.addClause watched kind).2 where
  pending := rfl
  names := fun _ h => h
  clauses := fun k hk => by
    rcases List.mem_append.mp hk with hk | hk
    · exact .inl hk
    · rw [List.mem_singleton.mp hk]
      exact .inr hkind

theorem emit (enc : Encoder N S F) (watched : Option Watches) {kind : Clause N} (outcome : EmitOutcome)
    (hkind : kind.forbidName = none) : enc.Inert (enc.emit P watched kind outcome) := by
  obtain ⟨q, t, a, flags, panicked, heq⟩ := enc.emit_eq (P := P) watched kind outcome
  rw [heq]
  obtain ⟨h₁, h₂, h₃⟩ := addClause enc watched hkind
  exact ⟨h₁, h₂, h₃⟩

/-! ### Queueing and interning -/

theorem queuePackage (enc : Encoder N S F) (name : N) : enc.Inert (enc.queuePackage name) := by
  rcases enc.queuePackage_cases name with ⟨-, h⟩ | ⟨-, h⟩ <;> rw [h]
  · exact refl enc
  · exact ⟨rfl, fun _ h => h, fun _ h => .inl h⟩

theorem queueSolvable (enc : Encoder N S F) (p : SolvableIdOrRoot S) : enc.Inert (enc.queueSolvable p) := by
  obtain ⟨ps, tasks, -, h⟩ := enc.queueSolvable_eq p
  rw [h]
  exact ⟨rfl, fun _ h => h, fun _ h => .inl h⟩

theorem queueTask (enc : Encoder N S F) (t : Task N S) : enc.Inert (enc.queueTask t) :=
  ⟨rfl, fun _ h => h, fun _ h => .inl h⟩

theorem internSolvable (enc : Encoder N S F) (x : S) : enc.Inert (enc.internSolvable x).2 :=
  ⟨rfl, fun _ h => h, fun _ h => .inl h⟩

theorem internSolvableOrRoot (enc : Encoder N S F) (p : SolvableIdOrRoot S) :
    enc.Inert (enc.internSolvableOrRoot p).2 := ⟨rfl, fun _ h => h, fun _ h => .inl h⟩

theorem internSolvables (enc : Encoder N S F) (l : List S) : enc.Inert (enc.internSolvables l).2 :=
  ⟨rfl, fun _ h => h, fun _ h => .inl h⟩

theorem internCandidates (enc : Encoder N S F) (l : List (List S)) : enc.Inert (enc.internCandidates l).2 := by
  induction l generalizing enc with
  | nil => exact refl enc
  | cons xs l ih => exact (internSolvables enc xs).trans (ih (enc.internSolvables xs).2)

theorem atLeastOneVariable (enc : Encoder N S F) (name : N) : enc.Inert (enc.atLeastOneVariable name).2 := by
  unfold Encoder.atLeastOneVariable
  split
  · exact refl enc
  · exact ⟨rfl, fun _ h => h, fun _ h => .inl h⟩

theorem prefetch (enc : Encoder N S F) (available : S → Bool) (l : List S) :
    enc.Inert (enc.prefetch available l) := by
  refine foldl (fun e x => ?_) l enc
  split
  · exact queueSolvable e (.solvable x)
  · exact refl e

/-- The start of a call only queues tasks. -/
theorem start (s : SolverState N S F) (level : Nat) (solvables : List (SolvableIdOrRoot S))
    (fired : List (DeferredRequirement S)) :
    (Encoder.idle level s).Inert (Encoder.start P s level solvables fired) := by
  refine (foldl queueSolvable solvables (.idle level s)).trans (foldl (fun e entry => ?_) fired _)
  exact (foldl queuePackage _ e).trans (queueTask _ _)

/-! ### Dependencies, packages and constraints -/

theorem addExclusionClause (P : DependencyProvider N S) (enc : Encoder N S F) (p : SolvableIdOrRoot S) (reason : StringId) :
    enc.Inert (enc.addExclusionClause p reason) := by
  rw [addExclusionClause_eq P]
  exact (internSolvableOrRoot enc p).trans (emit _ _ _ rfl)

theorem onDependenciesAvailable (enc : Encoder N S F) (p : SolvableIdOrRoot S) :
    enc.Inert (enc.onDependenciesAvailable P problem p) := by
  unfold Encoder.onDependenciesAvailable
  cases P.dependenciesOf problem p with
  | unknown reason => exact addExclusionClause P enc p reason
  | known deps =>
      dsimp only
      refine (foldl queuePackage _ enc).trans ((foldl (fun e r => ?_) _ _).trans (foldl (fun e vs => ?_) _ _))
      · unfold Encoder.queueConditionalRequirement
        split <;> exact queueTask e _
      · exact queueTask e _

theorem onCandidatesAvailable (enc : Encoder N S F) (name : N) :
    enc.Inert (enc.onCandidatesAvailable P name) := by
  unfold Encoder.onCandidatesAvailable
  refine Inert.trans ?_ (foldl (fun e x => addExclusionClause P e _ _) _ _)
  have hmultiple : enc.Inert (if (P.candidatesOf name).allowMultiple = true then
      { enc with state := { enc.state with
          allowMultipleNames := enc.state.allowMultipleNames ++ [name] } }
      else enc) := by
    split
    · exact ⟨rfl, List.subset_append_left _ _, fun _ h => .inl h⟩
    · exact refl enc
  cases (P.candidatesOf name).locked with
  | none => exact hmultiple
  | some locked =>
      refine hmultiple.trans ((internSolvable _ locked).trans (foldl (fun e x => ?_) _ _))
      by_cases h : x = locked
      · rw [Encoder.addLockClause, if_pos h]
        exact refl e
      · rw [addLockClause_eq P e locked _ x h]
        exact (internSolvable e x).trans (emit _ _ _ rfl)

theorem onConditionDataAvailable (enc : Encoder N S F) (p : SolvableIdOrRoot S) (r : ConditionalRequirement)
    (c : ConditionId) : enc.Inert (enc.onConditionDataAvailable P p r c) := by
  unfold Encoder.onConditionDataAvailable
  dsimp only
  have hdefer (e : Encoder N S F) (l : List VersionSetId) : e.Inert (deferDisjunct P p r c e l) :=
    ⟨rfl, fun _ h => h, fun _ h => .inl h⟩
  split
  · exact foldl hdefer _ enc
  · exact (foldl hdefer _ enc).trans ((foldl queuePackage _ _).trans (queueTask _ _))

theorem addConstrainsExcluded (P : DependencyProvider N S) (aux : VariableId) (vs : VersionSetId)
    (enc : Encoder N S F) (x : S) : enc.Inert (Encoder.addConstrainsExcluded aux vs enc x) := by
  rw [addConstrainsExcluded_eq P]
  exact (internSolvable enc x).trans (emit _ _ _ rfl)

theorem onConstraintCandidatesAvailable (enc : Encoder N S F) (p : SolvableIdOrRoot S) (vs : VersionSetId) :
    enc.Inert (enc.onConstraintCandidatesAvailable P p vs) := by
  rw [onConstraint_eq]
  dsimp only
  refine (internSolvableOrRoot enc p).trans ?_
  generalize (enc.internSolvableOrRoot p).2 = e
  split
  · refine foldl (fun e x => ?_) _ e
    rw [addConstrains_eq P]
    exact (internSolvable e x).trans (emit _ _ _ rfl)
  · refine Inert.trans ?_ (emit _ _ _ rfl)
    unfold constrainsAux
    split
    · exact refl e
    · dsimp only [SolverState.alloc]
      refine Inert.trans ?_ (foldl (addConstrainsExcluded P _ vs) _ _)
      exact ⟨rfl, fun _ h => h, fun _ h => .inl h⟩

/-! ### Clauses of a requirement -/

theorem requiresGate (P : DependencyProvider N S) (enc : Encoder N S F) (r : Requirement) (candidates : List (List VariableId)) :
    enc.Inert (enc.requiresGate P r candidates).2 := by
  cases h : enc.state.requiresAuxVars.get? r with
  | some gate =>
      rw [requiresGate_some P enc r candidates h]
      exact refl enc
  | none =>
      rw [requiresGate_none P enc r candidates h]
      dsimp only
      refine Inert.trans ?_ (emit _ _ _ rfl)
      exact ⟨rfl, fun _ h => h, fun _ h => .inl h⟩

theorem encodeRequirement (v : VariableId) (r : Requirement) (candidates : List (List VariableId))
    (enc : Encoder N S F) (condition : Option DisjunctionId) :
    enc.Inert (Encoder.encodeRequirement P v r candidates enc condition) := by
  rw [encodeRequirement_eq]
  split
  · rw [addSharedRequires_eq]
    refine (requiresGate P enc r candidates).trans ?_
    exact Inert.trans (emit _ _ _ rfl) ⟨rfl, fun _ h => h, fun _ h => .inl h⟩
  · exact emit _ _ _ rfl

end Encoder.Inert

/-! ## Registering -/

variable (P) in
/-- No candidate of a package that allows multiples is registered, and none of its clauses exists. -/
structure Unforbidden (enc : Encoder N S F) : Prop where
  pending : ∀ e ∈ enc.pendingForbidClauses.entries, (P.candidatesOf e.1).allowMultiple = false
  clauses : ∀ kind ∈ enc.state.clauses, ∀ name, kind.forbidName = some name →
    (P.candidatesOf name).allowMultiple = false

variable (P) in
/-- The package is known to allow multiples, if it does. -/
def Encoder.Knows (enc : Encoder N S F) (name : N) : Prop :=
  (P.candidatesOf name).allowMultiple = true → name ∈ enc.state.allowMultipleNames

instance (enc : Encoder N S F) (name : N) : Decidable (enc.Knows P name) :=
  inferInstanceAs (Decidable (_ → _))

variable (P ready) in
/-- Only candidates of certain packages are registered. -/
structure Encoder.Registers (enc enc' : Encoder N S F) : Prop where
  names : enc.state.allowMultipleNames ⊆ enc'.state.allowMultipleNames
  unforbidden : (∀ name, ready name → enc.Knows P name) → Unforbidden P enc → Unforbidden P enc'

namespace Encoder.Registers

theorem of_inert (h : enc.Inert enc') : enc.Registers P ready enc' where
  names := h.names
  unforbidden := fun _ hu => by
    refine ⟨fun e he => hu.pending e (h.pending ▸ he), fun kind hk name hname => ?_⟩
    rcases h.clauses kind hk with hk | hk
    · exact hu.clauses kind hk name hname
    · rw [hk] at hname
      cases hname

theorem trans (h : enc.Registers P ready enc') (h' : enc'.Registers P ready enc'') :
    enc.Registers P ready enc'' where
  names := fun _ hn => h'.names (h.names hn)
  unforbidden := fun hready hu =>
    h'.unforbidden (fun name hn hm => h.names (hready name hn hm)) (h.unforbidden hready hu)

theorem foldl {α : Type} {f : Encoder N S F → α → Encoder N S F} (l : List α) (enc : Encoder N S F)
    (hf : ∀ (enc : Encoder N S F), ∀ a ∈ l, enc.Registers P ready (f enc a)) :
    enc.Registers P ready (l.foldl f enc) :=
  List.foldl_rule (enc.Registers P ready) l (of_inert (.refl enc)) fun e a ha h => h.trans (hf e a ha)

theorem registerForbidTarget (enc : Encoder N S F) {name : N} (hname : ready name) (v : VariableId) :
    enc.Registers P ready (enc.registerForbidTarget name v) := by
  rcases enc.registerForbidTarget_cases name v with ⟨-, h⟩ | ⟨-, h⟩ | ⟨hmulti, h⟩ <;> rw [h]
  · exact of_inert (.refl enc)
  · exact of_inert (.refl enc)
  · refine ⟨fun _ h => h, fun hready hu => ⟨fun e he => ?_, hu.clauses⟩⟩
    rcases IndexMap.mem_insert he with rfl | he
    · by_contra hm
      exact hmulti (hready name hname (by simpa using hm))
    · exact hu.pending e he

/-- The candidates of a complement belong to its package. -/
theorem complementLiterals (enc : Encoder N S F) (c : DisjunctionComplement S)
    (hc : ∀ name ∈ c.registered P, ready name) :
    enc.Registers P ready (enc.complementLiterals P c).2 := by
  cases c with
  | solvables vs solvables =>
      refine (of_inert (.internSolvables enc solvables)).trans (foldl _ _ fun e v _ => ?_)
      exact registerForbidTarget e (hc _ rfl) v
  | empty vs => exact of_inert (.atLeastOneVariable enc (P.versionSetName vs))

theorem disjunctLiterals (l : List (DisjunctionComplement S)) (enc : Encoder N S F)
    (hl : ∀ name ∈ l.filterMap (DisjunctionComplement.registered P), ready name) :
    enc.Registers P ready (enc.disjunctLiterals P l).2 := by
  induction l generalizing enc with
  | nil => exact of_inert (.refl enc)
  | cons c l ih =>
      have hc : enc.Registers P ready (enc.complementLiterals P c).2 :=
        complementLiterals enc c fun name hn => hl name (List.mem_filterMap.mpr ⟨c, List.mem_cons_self, hn⟩)
      refine hc.trans (ih _ fun name hn => hl name ?_)
      obtain ⟨c', hc', hn⟩ := List.mem_filterMap.mp hn
      exact List.mem_filterMap.mpr ⟨c', List.mem_cons_of_mem _ hc', hn⟩

theorem allocDisjunctions (c : ConditionId) (dnf : List (List (DisjunctionComplement S))) (enc : Encoder N S F)
    (hdnf : ∀ l ∈ dnf, ∀ name ∈ l.filterMap (DisjunctionComplement.registered P), ready name) :
    enc.Registers P ready (Encoder.allocDisjunctions P c enc dnf).2 := by
  induction dnf generalizing enc with
  | nil => exact of_inert (.refl enc)
  | cons l dnf ih =>
      have hl := disjunctLiterals l enc (hdnf l List.mem_cons_self)
      have hadd : (enc.disjunctLiterals P l).2.Inert
          ((enc.disjunctLiterals P l).2.addDisjunction ⟨(enc.disjunctLiterals P l).1, c⟩) :=
        ⟨rfl, fun _ h => h, fun _ h => .inl h⟩
      exact (hl.trans (of_inert hadd)).trans (ih _ fun l' hl' => hdnf l' (List.mem_cons_of_mem _ hl'))

/-- **A requirement** registers candidates of its packages and of the complements of its condition. -/
theorem onRequirementCandidatesAvailable (hP : P.WellFormed) (enc : Encoder N S F) (available : S → Bool)
    (p : SolvableIdOrRoot S) (r : ConditionalRequirement)
    (condition : Option (ConditionId × List (List (DisjunctionComplement S))))
    (hr : ∀ vs ∈ r.requirement.versionSets P, ready (P.versionSetName vs))
    (hcondition : ∀ c dnf, condition = some (c, dnf) → ∀ l ∈ dnf,
      ∀ name ∈ l.filterMap (DisjunctionComplement.registered P), ready name) :
    enc.Registers P ready (enc.onRequirementCandidatesAvailable P available p r condition) := by
  rw [onRequirementCandidatesAvailable_eq]
  dsimp only
  have hname : ∀ x ∈ ((r.requirement.versionSets P).map P.sortedCandidates).flatten,
      ready (P.solvableName x) := by
    intro x hx
    obtain ⟨l, hl, hxl⟩ := List.mem_flatten.mp hx
    obtain ⟨vs, hvs, rfl⟩ := List.mem_map.mp hl
    rw [hP.solvableName_of_matching (hP.mem_sortedCandidates.mp hxl)]
    exact hr vs hvs
  generalize (r.requirement.versionSets P).map P.sortedCandidates = candidates at hname ⊢
  have hintern : enc.Registers P ready ((enc.internSolvableOrRoot p).2.internCandidates candidates).2 :=
    of_inert ((Inert.internSolvableOrRoot enc p).trans (.internCandidates _ candidates))
  generalize (enc.internSolvableOrRoot p).2.internCandidates candidates = e₁ at hintern ⊢
  have hregister : e₁.2.Registers P ready ((candidates.flatten.zip e₁.1.flatten).foldl
      (fun enc c => enc.registerForbidTarget (P.solvableName c.1) c.2) e₁.2) :=
    foldl _ _ fun e c hc => registerForbidTarget e (hname c.1 (List.of_mem_zip hc).1) c.2
  generalize (candidates.flatten.zip e₁.1.flatten).foldl _ _ = e₂ at hregister ⊢
  have hprefetch : e₂.Registers P ready (e₂.prefetch available candidates.flatten) :=
    of_inert (.prefetch e₂ available _)
  generalize e₂.prefetch available candidates.flatten = e₃ at hprefetch ⊢
  have hids : e₃.Registers P ready (e₃.conditionIds P condition).2 := by
    cases condition with
    | none => exact of_inert (.refl e₃)
    | some cd => exact allocDisjunctions cd.1 cd.2 e₃ (hcondition cd.1 cd.2 rfl)
  generalize e₃.conditionIds P condition = e₄ at hids ⊢
  have hencode : e₄.2.Registers P ready
      (e₄.1.foldl (Encoder.encodeRequirement P (enc.internSolvableOrRoot p).1 r.requirement e₁.1) e₄.2) :=
    foldl _ _ fun e d _ => of_inert (.encodeRequirement _ _ _ e d)
  refine ((hintern.trans hregister).trans (hprefetch.trans hids)).trans (hencode.trans (of_inert ?_))
  exact ⟨rfl, fun _ h => h, fun _ h => .inl h⟩

end Encoder.Registers

/-! ## The end of a call -/

namespace Unforbidden

theorem registers {P : DependencyProvider N S} {ready : N → Prop} {enc enc' : Encoder N S F}
    (h : Unforbidden P enc) (hr : enc.Registers P ready enc') (hready : ∀ name, ready name → enc.Knows P name) :
    Unforbidden P enc' :=
  hr.unforbidden hready h

theorem inert (h : Unforbidden P enc) (hi : enc.Inert enc') : Unforbidden P enc' := by
  have hr : enc.Registers P (fun _ => False) enc' := .of_inert hi
  exact h.registers hr fun _ hf => hf.elim

/-- A clause for a package that does not allow multiples. -/
theorem addForbidClause {name : N} (hname : (P.candidatesOf name).allowMultiple = false) (a b : VariableId)
    (isPositive : Bool) (enc : Encoder N S F) (h : Unforbidden P enc) :
    Unforbidden P (Encoder.addForbidClause name a b isPositive enc) := by
  rw [Encoder.addForbidClause_eq P]
  generalize Encoder.forbidOutcome _ _ _ _ = outcome
  obtain ⟨q, t, l, flags, panicked, heq⟩ := enc.emit_eq (P := P)
    (some (negative a, Encoder.helperLiteral b isPositive))
    (.forbidMultipleInstances a (Encoder.helperLiteral b isPositive) name) outcome
  rw [heq]
  refine ⟨h.pending, fun kind hk name' hname' => ?_⟩
  rcases List.mem_append.mp hk with hk | hk
  · exact h.clauses kind hk name' hname'
  · rw [List.mem_singleton.mp hk] at hname'
    obtain rfl : name = name' := Option.some.inj hname'
    exact hname

theorem addPendingForbidClause {target : N × VariableId}
    (hname : (P.candidatesOf target.1).allowMultiple = false) (h : Unforbidden P enc) :
    Unforbidden P (enc.addPendingForbidClause target) := by
  obtain ⟨name, v⟩ := target
  rw [addPendingForbidClause_eq]
  have hadd : Unforbidden P ((enc.state.atMostOneTrackers.getD name {}).add v (Encoder.addForbidClause name)
      (Encoder.allocForbidMultiple name) enc).2.2 :=
    AtMostOnceTracker.add_rule (Unforbidden P) (fun a b bit e he => addForbidClause hname a b bit e he)
      (fun e he => ⟨he.pending, he.clauses⟩) _ v h
  dsimp only
  generalize (enc.state.atMostOneTrackers.getD name {}).add v (Encoder.addForbidClause name)
    (Encoder.allocForbidMultiple name) enc = r at hadd ⊢
  have hset : Unforbidden P (r.2.2.setTracker name r.2.1) := ⟨hadd.pending, hadd.clauses⟩
  unfold Encoder.linkNew
  split
  · split
    · exact hset.inert (.addClause _ _ rfl)
    · exact hset
  · exact hset

/-- Learnt clauses forbid nothing. -/
theorem conserves {level level' : Nat} {s s' : SolverState N S F} (h : Unforbidden P (.idle level s))
    (hs : Conserves s s') : Unforbidden P (.idle level' s') where
  pending := fun e he => by cases he
  clauses := fun kind hk name hname => by
    obtain ⟨ids, hids⟩ := hs.clauses
    rcases List.mem_append.mp (hids ▸ hk : kind ∈ s.clauses ++ ids.map Clause.learnt) with hk | hk
    · exact h.clauses kind hk name hname
    · obtain ⟨id, -, rfl⟩ := List.mem_map.mp hk
      cases hname

/-- **The end of a call** adds clauses for what was registered. -/
theorem finish (h : Unforbidden P enc) : Unforbidden P enc.finish := by
  unfold Encoder.finish Encoder.addPendingAtLeastOneClauses Encoder.addPendingForbidClauses
  refine List.foldl_rule (Unforbidden P) _ ?_ fun e package _ he => ?_
  · have hforbid : Unforbidden P ((enc.pendingForbidClauses.entries.flatMap fun e => e.2.map fun v => (e.1, v)).foldl
        Encoder.addPendingForbidClause { enc with pendingForbidClauses := {} }) := by
      refine List.foldl_rule (Unforbidden P) _ ⟨(fun e he => by cases he), h.clauses⟩ fun e target htarget he => ?_
      obtain ⟨entry, hentry, hv⟩ := List.mem_flatMap.mp htarget
      obtain ⟨v, -, rfl⟩ := List.mem_map.mp hv
      exact he.addPendingForbidClause (h.pending entry hentry)
    exact ⟨hforbid.pending, hforbid.clauses⟩
  · have hclauses := List.foldl_rule (Unforbidden P) (e.state.atMostOneTrackers.getD package.1 {}).vars he
      (f := Encoder.addAtLeastOneClause package.2) fun e v _ he => by
        rw [Encoder.addAtLeastOneClause_eq P]
        exact he.inert (.emit _ _ _ rfl)
    exact ⟨hclauses.pending, hclauses.clauses⟩

end Unforbidden

end Unforbidden

/-! ## Runs -/

section Runs

variable {P : DependencyProvider N S} {problem : Problem S} {A : RunFacts} {act : ActivityParams F}
  {enc : Encoder N S F} {c c' : Config N S F}

/-- **Processing a task** registers nothing for a package that allows multiples, if the packages of a
    condition that is encoded are known. -/
theorem Unforbidden.task (hP : P.WellFormed) (hr : Running P problem A enc) (h : Unforbidden P enc) {i : Nat}
    {t : Task N S} (hi : enc.pending[i]? = some t) (hready : t.ready P enc.pending = true) (available : S → Bool)
    (hknown : ∀ p r c dnf, t = .requirementCandidates p r (some (c, dnf)) → ∀ l ∈ dnf,
      ∀ name ∈ l.filterMap (DisjunctionComplement.registered P), enc.Knows P name) :
    Unforbidden P
      (Encoder.onTaskResult P problem available { enc with pending := enc.pending.eraseIdx i } t) := by
  have h₀ : Unforbidden P ({ enc with pending := enc.pending.eraseIdx i } : Encoder N S F) :=
    ⟨h.pending, h.clauses⟩
  cases t with
  | dependencies p => exact h₀.inert (.onDependenciesAvailable _ p)
  | candidates name => exact h₀.inert (.onCandidatesAvailable _ name)
  | conditionData p r c => exact h₀.inert (.onConditionDataAvailable _ p r c)
  | constraintCandidates p vs => exact h₀.inert (.onConstraintCandidatesAvailable _ p vs)
  | requirementCandidates p r condition =>
      have htask := hr.good.ok.tasks _ (List.mem_of_getElem? hi)
      -- the packages of the requirement were processed
      have hreq : ∀ vs ∈ r.requirement.versionSets P, enc.Knows P (P.versionSetName vs) := by
        intro vs hvs hm
        have hprocessed : enc.Processed (P.versionSetName vs) :=
          ⟨htask.2.1 vs hvs, by simpa using List.all_eq_true.mp hready vs hvs⟩
        exact hr.good.ok.multi _ hprocessed hm
      have hregisters : Encoder.Registers P (enc.Knows P) _ _ :=
        .onRequirementCandidatesAvailable hP { enc with pending := enc.pending.eraseIdx i } available p r
          condition hreq fun c dnf hc => hknown p r c dnf (by rw [hc])
      exact h₀.registers hregisters fun _ hn => hn

namespace Config

/-- The packages of the condition that is encoded next are known to allow multiples, if they do. -/
def KnowsMultiples (P : DependencyProvider N S) (ch : Choice S) (c : Config N S F) : Prop :=
  match (nextTask P c.encoder.pending ch.task).bind fun i => c.encoder.pending[i]? with
  | some (.requirementCandidates _ _ (some (_, dnf))) =>
      ∀ l ∈ dnf, ∀ name ∈ l.filterMap (DisjunctionComplement.registered P), c.encoder.Knows P name
  | _ => True

instance (P : DependencyProvider N S) (ch : Choice S) (c : Config N S F) : Decidable (c.KnowsMultiples P ch) := by
  unfold KnowsMultiples
  split <;> infer_instance

theorem not_isEncoding_of_dead (h : ¬ c.Alive) : ¬ c.IsEncoding := by
  intro hc
  unfold IsEncoding at hc
  unfold Alive at h
  split at hc
  · next hpoint =>
      rw [hpoint] at h
      exact h trivial
  · exact hc

theorem StepShape.unforbidden (hP : P.WellFormed) (h : c.Ok P problem A) (hu : Unforbidden P c.encoder)
    {ch : Choice S} (hknown : c.KnowsMultiples P ch) {encoded : List (Occurrence S)}
    (hstep : StepShape P problem A ch c encoded c') : Unforbidden P c'.encoder := by
  cases hstep with
  | quiet hc hnone hq =>
      rw [encoder_of_idle hc] at hu
      rw [encoder_of_idle hq.idle]
      exact hu.conserves hq.conserves
  | @start hc hnone s level d fired solvables hs hok hd hl hstate henc =>
      rw [encoder_of_idle hc] at hu
      rw [henc]
      have hs' : Unforbidden P (.idle level s) := hu.conserves hs
      have hdrained : Unforbidden P (.idle level { s with deferredRequirements := d }) :=
        ⟨hs'.pending, hs'.clauses⟩
      exact hdrained.inert (.start _ level solvables fired)
  | @task i t hc hnext hi hready available hencoded hstate henc =>
      obtain ⟨hr, -⟩ := h.encoder hc
      have htask := hu.task hP hr hi hready available fun p r condition dnf ht => by
        subst ht
        unfold KnowsMultiples at hknown
        rw [hnext, Option.bind_some, hi] at hknown
        exact hknown
      by_cases halive : c'.Alive
      · rw [henc halive]
        exact htask
      · rw [encoder_of_idle (not_isEncoding_of_dead halive), hstate]
        exact ⟨(fun e he => by cases he), htask.clauses⟩
  | finish hc hnone hpending hq =>
      rw [encoder_of_idle hq.idle]
      have hfinished : Unforbidden P (.idle 0 c.encoder.finish.state) :=
        ⟨(fun e he => by cases he), hu.finish.clauses⟩
      exact hfinished.conserves hq.conserves
  | dead hdead hstate =>
      rw [encoder_of_idle (not_isEncoding_of_dead hdead), hstate]
      refine ⟨(fun e he => by cases he), fun kind hk => hu.clauses kind ?_⟩
      rw [encoder_state]
      exact hk

end Config

end Runs

end Resolvo
