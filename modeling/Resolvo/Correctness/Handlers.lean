import Resolvo.Correctness.Emissions
import Resolvo.Lib.Fold

/-!
# `Correctness.Handlers` — the handlers are sequences of encoder steps

Each function of the encoder is a sequence of `EncStep`s, from any encoder that satisfies the invariant.
Next to that, each lemma records what the function leaves behind: the variables it interned, the clauses
that encode a requirement or a constraint.
-/

set_option linter.unusedSectionVars false

namespace Resolvo

open Sat Relation SolverState

variable {N S F : Type} [DecidableEq N] [DecidableEq S]

section Handlers

variable {P : DependencyProvider N S} {problem : Problem S} {A : RunFacts} {enc enc' : Encoder N S F}

/-- Both invariants of a running encoder. -/
structure EncGood (P : DependencyProvider N S) (problem : Problem S) (A : RunFacts)
    (enc : Encoder N S F) : Prop where
  ok : EncOk P problem (A.Ordered P problem) enc
  trail : EncTrail P A enc

theorem EncSteps.good (h : EncSteps P problem A enc enc') (hP : P.WellFormed)
    (hg : EncGood P problem A enc) : EncGood P problem A enc' :=
  ⟨EncSteps.ok h hP hg.ok, EncSteps.trail h hP hg.ok hg.trail⟩

/-- A solvable that is true after some steps was true before them. -/
theorem EncSteps.positive_of (h : EncSteps P problem A enc enc') (hP : P.WellFormed)
    (hg : EncGood P problem A enc) {x : S} {v : VariableId} (hx : enc'.state.IsVar (.solvable x) v)
    (hv : enc'.state.value v = some true) :
    enc.state.IsVar (.solvable x) v ∧ enc.state.value v = some true := by
  induction h with
  | refl => exact ⟨hx, hv⟩
  | tail hpre hstep ih =>
      have hgood := EncSteps.good hpre hP hg
      obtain ⟨hx', hv'⟩ := hstep.positive_of hgood.ok.tables hgood.trail hx hv
      exact ih hx' hv'

/-- An at-least-one variable that is not false is not false after some steps. -/
theorem EncSteps.not_false (h : EncSteps P problem A enc enc') (hP : P.WellFormed)
    (hg : EncGood P problem A enc) {name : N} {v : VariableId}
    (hv : enc.state.variableMap.origins[v]? = some (.atLeastOne name))
    (hne : enc.state.value v ≠ some false) : enc'.state.value v ≠ some false := by
  induction h with
  | refl => exact hne
  | tail hpre hstep ih =>
      have hgood := EncSteps.good hpre hP hg
      exact hstep.not_false hgood.ok.tables hgood.trail.core
        ((EncSteps.grows hpre hP hg.ok).vars.origin hv) ih

theorem EncSteps.processed (h : EncSteps P problem A enc enc') {name : N}
    (hn : enc.Processed name) : enc'.Processed name := by
  induction h with
  | refl => exact hn
  | tail _ hstep ih => exact hstep.processed ih

theorem EncSteps.registered (h : EncSteps P problem A enc enc') (hP : P.WellFormed)
    (hg : EncGood P problem A enc) {v : VariableId} (hv : enc.Registered P v) :
    enc'.Registered P v := by
  induction h with
  | refl => exact hv
  | tail hpre hstep ih => exact hstep.registered (EncSteps.good hpre hP hg).ok.tables ih

/-- A fold of functions that are steps is steps. -/
theorem EncSteps.foldl {α : Type} {f : Encoder N S F → α → Encoder N S F} (l : List α)
    (h : ∀ e, ∀ a ∈ l, EncSteps P problem A enc e → EncSteps P problem A e (f e a)) :
    EncSteps P problem A enc (l.foldl f enc) :=
  List.foldl_rule (fun e => EncSteps P problem A enc e) l .refl
    fun e a ha he => he.trans (h e a ha he)

/-- What each round of a fold of steps establishes holds at the end, if growth preserves it. -/
theorem EncSteps.foldl_post {α : Type} {f : Encoder N S F → α → Encoder N S F}
    (Q : α → SolverState N S F → Prop)
    (hmono : ∀ a (s s' : SolverState N S F), s.Grows s' → Q a s → Q a s') (hP : P.WellFormed)
    (hg : EncGood P problem A enc) (l : List α)
    (h : ∀ e, ∀ a ∈ l, EncSteps P problem A enc e →
      EncSteps P problem A e (f e a) ∧ Q a (f e a).state) :
    EncSteps P problem A enc (l.foldl f enc) ∧ ∀ a ∈ l, Q a (l.foldl f enc).state := by
  induction l generalizing enc with
  | nil => exact ⟨.refl, by simp⟩
  | cons a l ih =>
      obtain ⟨hstep, hq⟩ := h enc a List.mem_cons_self .refl
      have hg' := EncSteps.good hstep hP hg
      obtain ⟨hrest, hall⟩ := ih hg' fun e b hb he => h e b (List.mem_cons_of_mem _ hb) (hstep.trans he)
      refine ⟨hstep.trans hrest, fun b hb => ?_⟩
      rcases List.mem_cons.mp hb with rfl | hb
      · exact hmono b _ _ (EncSteps.grows hrest hP hg'.ok) hq
      · exact hall b hb

/-! ## Interning -/

variable (P problem A) in
theorem internSolvable_steps (enc : Encoder N S F) (x : S) :
    EncSteps P problem A enc (enc.internSolvable x).2 := .single (.intern enc x)

theorem internSolvable_isVar (hg : EncGood P problem A enc) (x : S) :
    (enc.internSolvable x).2.state.IsVar (.solvable x) (enc.internSolvable x).1 :=
  (VariableMap.internSolvable_spec hg.ok.tables.vars x).2.2

variable (P problem A) in
theorem internSolvableOrRoot_steps (enc : Encoder N S F) (p : SolvableIdOrRoot S) :
    EncSteps P problem A enc (enc.internSolvableOrRoot p).2 := by
  cases p with
  | root => exact .refl
  | solvable x => exact internSolvable_steps P problem A enc x

theorem internSolvableOrRoot_isVar (hg : EncGood P problem A enc) (p : SolvableIdOrRoot S) :
    (enc.internSolvableOrRoot p).2.state.IsVar p (enc.internSolvableOrRoot p).1 := by
  cases p with
  | root => rfl
  | solvable x => exact internSolvable_isVar hg x

/-- Interning does not touch the trail. -/
theorem internSolvableOrRoot_tracker (enc : Encoder N S F) (p : SolvableIdOrRoot S) :
    (enc.internSolvableOrRoot p).2.state.decisionTracker = enc.state.decisionTracker := rfl

theorem internSolvables_cons (enc : Encoder N S F) (x : S) (l : List S) :
    enc.internSolvables (x :: l) =
      ((enc.internSolvable x).1 :: ((enc.internSolvable x).2.internSolvables l).1,
        ((enc.internSolvable x).2.internSolvables l).2) := rfl

theorem internSolvables_spec (hP : P.WellFormed) (l : List S) (hg : EncGood P problem A enc) :
    EncSteps P problem A enc (enc.internSolvables l).2 ∧
      (enc.internSolvables l).2.state.AreVars l (enc.internSolvables l).1 := by
  induction l generalizing enc with
  | nil => exact ⟨.refl, .nil⟩
  | cons x l ih =>
      have hx := internSolvable_steps P problem A enc x
      have hg' := EncSteps.good hx hP hg
      obtain ⟨hsteps, hvars⟩ := ih hg'
      rw [internSolvables_cons]
      refine ⟨hx.trans hsteps, .cons ?_ hvars⟩
      exact (internSolvable_isVar hg x).mono (EncSteps.grows hsteps hP hg'.ok).vars

theorem internCandidates_spec (hP : P.WellFormed) (ls : List (List S))
    (hg : EncGood P problem A enc) :
    EncSteps P problem A enc (enc.internCandidates ls).2 ∧
      List.Forall₂ (AreVars (enc.internCandidates ls).2.state) ls (enc.internCandidates ls).1 := by
  induction ls generalizing enc with
  | nil => exact ⟨.refl, .nil⟩
  | cons l ls ih =>
      obtain ⟨hl, hvars⟩ := internSolvables_spec hP l hg
      have hg' := EncSteps.good hl hP hg
      obtain ⟨hsteps, hrest⟩ := ih hg'
      exact ⟨hl.trans hsteps, .cons (hvars.mono (EncSteps.grows hsteps hP hg'.ok).vars) hrest⟩

/-! ## Queueing -/

variable (P problem A) in
theorem queuePackages_steps (enc : Encoder N S F) (names : List N) :
    EncSteps P problem A enc (names.foldl Encoder.queuePackage enc) :=
  EncSteps.foldl names fun e name _ _ => .single (.package e name)

/-- The packages of a list are queued afterwards. -/
theorem queuePackages_mem (enc : Encoder N S F) (names : List N) :
    enc.state.clausesAddedForPackage ⊆
        (names.foldl Encoder.queuePackage enc).state.clausesAddedForPackage ∧
      ∀ name ∈ names, name ∈ (names.foldl Encoder.queuePackage enc).state.clausesAddedForPackage := by
  induction names generalizing enc with
  | nil => simp
  | cons name names ih =>
      obtain ⟨hsub, hmem⟩ := ih (enc.queuePackage name)
      have hname : name ∈ (enc.queuePackage name).state.clausesAddedForPackage ∧
          enc.state.clausesAddedForPackage ⊆
            (enc.queuePackage name).state.clausesAddedForPackage := by
        rcases enc.queuePackage_cases name with ⟨hm, h⟩ | ⟨-, h⟩ <;> rw [h]
        · exact ⟨hm, fun _ h => h⟩
        · exact ⟨List.mem_append_right _ List.mem_cons_self, fun _ => List.mem_append_left _⟩
      refine ⟨fun n hn => hsub (hname.2 hn), fun n hn => ?_⟩
      rcases List.mem_cons.mp hn with rfl | hn
      · exact hsub hname.1
      · exact hmem n hn

theorem queueTask_steps (enc : Encoder N S F) (t : Task N S) (hne : ∀ name, t ≠ .candidates name)
    (h : TaskOk P problem (A.Ordered P problem) enc t) : EncSteps P problem A enc (enc.queueTask t) :=
  .single (.task enc t hne h)

/-! ## Exclusions -/

/-- The variable of an excluded solvable is asserted false. -/
def Excludes (s : SolverState N S F) (p : SolvableIdOrRoot S) : Prop :=
  ∃ v id, s.IsVar p v ∧ (v, id) ∈ s.negativeAssertions

theorem Excludes.mono {s s' : SolverState N S F} {p : SolvableIdOrRoot S} (h : Excludes s p)
    (hg : s.Grows s') : Excludes s' p := by
  obtain ⟨v, id, hv, hm⟩ := h
  exact ⟨v, id, hv.mono hg.vars, hg.assertions hm⟩

theorem addExclusionClause_spec (hP : P.WellFormed) (hg : EncGood P problem A enc) (x : S)
    (reason : StringId) (hx : ExcludedFor P enc.state x reason) :
    EncSteps P problem A enc (enc.addExclusionClause (.solvable x) reason) ∧
      Excludes (enc.addExclusionClause (.solvable x) reason).state (.solvable x) := by
  have hi := internSolvableOrRoot_steps P problem A enc (.solvable x)
  have hg' := EncSteps.good hi hP hg
  have hx := hx.mono (EncSteps.grows hi hP hg.ok)
  have hv := internSolvableOrRoot_isVar hg (.solvable x)
  rw [Encoder.addExclusionClause_eq P]
  generalize enc.internSolvableOrRoot (.solvable x) = e at hi hg' hx hv ⊢
  obtain ⟨v, e⟩ := e
  have hstep : EncStep P problem A e (e.emit P none (.excluded v reason)
      (.assertion v (e.state.value v = some true))) := by
    refine .emit e none _ _ ⟨x, hv, hx⟩ trivial (fun w hw => by cases hw) (fun hb => by cases hb) ?_
      ⟨(fun _ _ _ w hw => by cases hw), (fun _ => ⟨_, _, rfl⟩), (fun _ w hw => by cases hw),
        (fun l hl => by cases hl)⟩
    refine ⟨rfl, fun hf => ⟨hg'.ok.tables.vars.lookup_ne_root hv, ?_⟩⟩
    exact of_decide_eq_true hf
  refine ⟨hi.trans (.single hstep), v, e.state.clauses.length, ?_, ?_⟩
  · exact hv.mono (hstep.grows hg'.ok.tables).vars
  · by_cases hval : e.state.value v = some true <;>
      simp [Encoder.emit, Encoder.register, Encoder.flagConflict, Encoder.addClause,
        SolverState.addClause, hval]

/-! ## Dependencies -/

theorem onDependenciesAvailable_steps (hP : P.WellFormed) (hg : EncGood P problem A enc)
    (p : SolvableIdOrRoot S) (hp : p ∈ enc.state.clausesAddedForSolvable) :
    EncSteps P problem A enc (enc.onDependenciesAvailable P problem p) := by
  simp only [Encoder.onDependenciesAvailable]
  split
  · next reason hdeps =>
      cases p with
      | root => cases hdeps
      | solvable x => exact (addExclusionClause_spec hP hg x reason (.inl ⟨hdeps, hp⟩)).1
  · next deps hdeps =>
      generalize hnames : ((deps.requirements.filter fun r => r.condition.isNone).flatMap
        (fun r => r.requirement.versionSets P) ++ deps.constrains).map P.versionSetName = names
      have hpack := queuePackages_steps P problem A enc names
      have hmem := (queuePackages_mem enc names).2
      have hp' := (EncSteps.grows hpack hP hg.ok).solvables hp
      generalize names.foldl Encoder.queuePackage enc = e at hpack hmem hp' ⊢
      -- the packages of the unconditional requirements stay queued while the tasks are added
      have hreq : EncSteps P problem A e
          (deps.requirements.foldl (Encoder.queueConditionalRequirement p) e) ∧
          (deps.requirements.foldl (Encoder.queueConditionalRequirement p) e).state = e.state := by
        refine List.foldl_rule (fun e' => EncSteps P problem A e e' ∧ e'.state = e.state) _
          ⟨.refl, rfl⟩ fun e' r hr ⟨he, hs⟩ => ?_
        have hr' : Declares P problem e'.state p r := ⟨⟨deps, hdeps, hr⟩, hs ▸ hp'⟩
        simp only [Encoder.queueConditionalRequirement]
        split
        · next hnone =>
            refine ⟨he.trans (queueTask_steps e' _ (fun _ h => by cases h)
              ⟨hr', fun vs hvs => ?_, fun _ => hnone, fun _ _ h => by cases h⟩), hs⟩
            rw [hs]
            refine hmem _ ?_
            rw [← hnames]
            refine List.mem_map_of_mem (List.mem_append_left _ (List.mem_flatMap.mpr ⟨r, ?_, hvs⟩))
            simp [hr, hnone]
        · next c hc =>
            exact ⟨he.trans (queueTask_steps e' _ (fun _ h => by cases h) ⟨hr', hc⟩), hs⟩
      refine (hpack.trans hreq.1).trans (EncSteps.foldl _ fun e' vs hvs he => ?_)
      have hg' := EncSteps.good (hpack.trans hreq.1) hP hg
      refine queueTask_steps e' _ (fun _ h => by cases h) ⟨⟨deps, hdeps, hvs⟩, ?_⟩
      exact (EncSteps.grows he hP hg'.ok).solvables (hreq.2 ▸ hp')

/-! ## Candidates of a package -/

/-- A clause keeps every solvable other than the locked one out. -/
def LocksOut (s : SolverState N S F) (x : S) : Prop :=
  ∃ v lockedVar, ∃ id : ClauseId, s.IsVar (.solvable x) v ∧ s.clauses[id]? = some (.lock lockedVar v)

theorem LocksOut.mono {s s' : SolverState N S F} {x : S} (h : LocksOut s x) (hg : s.Grows s') :
    LocksOut s' x := by
  obtain ⟨v, lockedVar, id, hv, hc⟩ := h
  exact ⟨v, lockedVar, id, hv.mono hg.vars, getElem?_of_isPrefix hg.clauses hc⟩

theorem Encoder.emit_clauses (enc : Encoder N S F) (w : Option Watches) (kind : Clause N)
    (o : EmitOutcome) : (enc.emit P w kind o).state.clauses = enc.state.clauses ++ [kind] := by
  obtain ⟨q, t, a, flags, panicked, h⟩ := enc.emit_eq (P := P) w kind o
  rw [h]
  rfl

theorem Encoder.emit_new (enc : Encoder N S F) (w : Option Watches) (kind : Clause N)
    (o : EmitOutcome) : (enc.emit P w kind o).state.clauses[enc.state.clauses.length]? = some kind := by
  rw [Encoder.emit_clauses]
  simp

theorem Encoder.emit_variableMap (enc : Encoder N S F) (w : Option Watches) (kind : Clause N)
    (o : EmitOutcome) : (enc.emit P w kind o).state.variableMap = enc.state.variableMap := by
  obtain ⟨q, t, a, flags, panicked, h⟩ := enc.emit_eq (P := P) w kind o
  rw [h]
  rfl

/-- The watches of a binary clause. -/
theorem watchOk_pair (kind : Clause N) (a b : Literal) : WatchOk kind [a, b] (a, b) where
  fst := by simp
  snd := by simp
  binary := by simp

theorem watchOk_swap (kind : Clause N) (a b : Literal) : WatchOk kind [a, b] (b, a) where
  fst := by simp
  snd := by simp
  binary := by simp [or_comm]

/-- The literal of a variable is false exactly if the variable has the other value. -/
theorem eval_negative {t : DecisionTracker} {v : VariableId} :
    t.eval (negative v) = some false ↔ t.assignedValue v = some true := by
  simp only [DecisionTracker.eval, Lit.eval, Option.map_eq_some_iff, DecisionTracker.assignedValue]
  constructor
  · rintro ⟨b, hb, hbf⟩
    cases b
    · cases hbf
    · exact hb
  · exact fun h => ⟨true, h, rfl⟩

theorem eval_positive {t : DecisionTracker} {v : VariableId} :
    t.eval (positive v) = some false ↔ t.assignedValue v = some false := by
  simp only [DecisionTracker.eval, Lit.eval, Option.map_eq_some_iff, DecisionTracker.assignedValue]
  constructor
  · rintro ⟨b, hb, hbf⟩
    cases b
    · exact hb
    · cases hbf
  · exact fun h => ⟨false, h, rfl⟩

/-- The lock clauses, where no solvable of the package is true yet. -/
theorem addLockClause_spec (hP : P.WellFormed) (hg : EncGood P problem A enc) {name : N}
    {locked other : S} (lockedVar : VariableId) (hlocked : (P.candidatesOf name).locked = some locked)
    (hname : name ∈ enc.state.clausesAddedForPackage)
    (hother : other ∈ (P.candidatesOf name).candidates) (hne : other ≠ locked)
    (hfree : A.hard → ∀ x v, P.solvableName x = name → enc.state.IsVar (.solvable x) v →
      enc.state.value v ≠ some true) :
    EncSteps P problem A enc (Encoder.addLockClause locked lockedVar enc other) ∧
      LocksOut (Encoder.addLockClause locked lockedVar enc other).state other := by
  have hi := internSolvable_steps P problem A enc other
  have hg' := EncSteps.good hi hP hg
  have hname' := (EncSteps.grows hi hP hg.ok).packages hname
  have hv := internSolvable_isVar hg other
  have hval : ∀ v, (enc.internSolvable other).2.state.value v = enc.state.value v := fun _ => rfl
  have hback := fun w (hw : (enc.internSolvable other).2.state.value w = some true) x hx =>
    EncSteps.positive_of hi hP hg (x := x) (v := w) hx hw
  rw [Encoder.addLockClause_eq P enc locked lockedVar other hne]
  generalize enc.internSolvable other = e at hi hg' hname' hv hval hback ⊢
  obtain ⟨v, e⟩ := e
  have hnroot := hg'.ok.tables.vars.lookup_ne_root hv
  have hstep : EncStep P problem A e (e.emit P (some (negative VariableId.root, negative v))
      (.lock lockedVar v) .idle) := by
    have hopen : A.hard → e.state.decisionTracker.eval (negative v) ≠ some false := by
      intro hh hf
      have htrue : e.state.value v = some true := eval_negative.mp hf
      obtain ⟨hx, hv'⟩ := hback v htrue other hv
      exact hfree hh other v (hP.candidate_name name other hother) hx hv'
    refine .emit e _ _ _ ⟨name, locked, other, hlocked, hname', hother, hne, hv⟩ trivial ?_
      (fun _ => rfl) ?_ (.binary rfl (fun hh _ _ => .inr (hopen hh)) fun l hl => by cases hl)
    · exact fun w hw => Option.some.inj hw ▸ watchOk_swap _ _ _
    · intro hh
      exact ⟨negative v, by simp [SolverState.kindLiterals, Clause.literals], hopen hh⟩
  refine ⟨hi.trans (.single hstep), v, lockedVar, e.state.clauses.length, ?_, ?_⟩
  · exact hv.mono (hstep.grows hg'.ok.tables).vars
  · exact Encoder.emit_new e _ _ _

theorem addLockedPackageClauses_spec (hP : P.WellFormed) (hg : EncGood P problem A enc) {name : N}
    {locked : S} (hlocked : (P.candidatesOf name).locked = some locked)
    (hname : name ∈ enc.state.clausesAddedForPackage)
    (hfree : A.hard → ∀ x v, P.solvableName x = name → enc.state.IsVar (.solvable x) v →
      enc.state.value v ≠ some true) :
    EncSteps P problem A enc
      (enc.addLockedPackageClauses locked (P.candidatesOf name).candidates) ∧
    ∀ x ∈ (P.candidatesOf name).candidates, x ≠ locked →
      LocksOut (enc.addLockedPackageClauses locked (P.candidatesOf name).candidates).state x := by
  have hi := internSolvable_steps P problem A enc locked
  have hg' := EncSteps.good hi hP hg
  have hname' := (EncSteps.grows hi hP hg.ok).packages hname
  have hfree' : ∀ e, EncSteps P problem A (enc.internSolvable locked).2 e → A.hard →
      ∀ x v, P.solvableName x = name → e.state.IsVar (.solvable x) v → e.state.value v ≠ some true := by
    intro e he hh x v hx hxv hv
    obtain ⟨hxv', hv'⟩ := EncSteps.positive_of (hi.trans he) hP hg hxv hv
    exact hfree hh x v hx hxv' hv'
  simp only [Encoder.addLockedPackageClauses]
  obtain ⟨hsteps, hall⟩ := EncSteps.foldl_post (fun x s => x ≠ locked → LocksOut s x)
    (fun x s s' hgrow h hne => (h hne).mono hgrow) hP hg' (P.candidatesOf name).candidates
    (f := Encoder.addLockClause locked (enc.internSolvable locked).1) fun e x hx he => by
      by_cases hne : x = locked
      · simp only [Encoder.addLockClause, if_pos hne]
        exact ⟨.refl, fun h => absurd hne h⟩
      · obtain ⟨h₁, h₂⟩ := addLockClause_spec hP
          (EncSteps.good he hP hg') (enc.internSolvable locked).1 hlocked
          ((EncSteps.grows he hP hg'.ok).packages hname') hx hne (hfree' e he)
        exact ⟨h₁, fun _ => h₂⟩
  exact ⟨hi.trans hsteps, hall⟩

/-- What processing the candidates of a package leaves behind. -/
structure PackageEncoded (P : DependencyProvider N S) (s : SolverState N S F) (name : N) : Prop where
  locked : ∀ locked, (P.candidatesOf name).locked = some locked →
    ∀ x ∈ (P.candidatesOf name).candidates, x ≠ locked → LocksOut s x
  excluded : ∀ e ∈ (P.candidatesOf name).excluded, Excludes s (.solvable e.1)

theorem PackageEncoded.mono {s s' : SolverState N S F} {name : N} (h : PackageEncoded P s name)
    (hg : s.Grows s') : PackageEncoded P s' name where
  locked := fun l hl x hx hne => (h.locked l hl x hx hne).mono hg
  excluded := fun e he => (h.excluded e he).mono hg

/-- The lock clauses of a package, if it is locked. -/
def Encoder.lockPackage (P : DependencyProvider N S) (enc : Encoder N S F) (name : N) :
    Encoder N S F :=
  match (P.candidatesOf name).locked with
  | some locked => enc.addLockedPackageClauses locked (P.candidatesOf name).candidates
  | none => enc

theorem onCandidatesAvailable_eq (enc : Encoder N S F) (i : Nat) (name : N) :
    ({ enc with pending := enc.pending.eraseIdx i } : Encoder N S F).onCandidatesAvailable P name =
      (P.candidatesOf name).excluded.foldl
        (fun enc e => enc.addExclusionClause (.solvable e.1) e.2)
        ((enc.complete P i (.candidates name)).lockPackage P name) := by
  unfold Encoder.onCandidatesAvailable Encoder.complete Encoder.lockPackage
    Encoder.addAllowMultiple
  cases (P.candidatesOf name).allowMultiple <;> rfl

theorem lockPackage_spec (hP : P.WellFormed) (hg : EncGood P problem A enc) {name : N}
    (hname : name ∈ enc.state.clausesAddedForPackage)
    (hfree : A.hard → ∀ x v, P.solvableName x = name → enc.state.IsVar (.solvable x) v →
      enc.state.value v ≠ some true) :
    EncSteps P problem A enc (enc.lockPackage P name) ∧
    ∀ locked, (P.candidatesOf name).locked = some locked →
      ∀ x ∈ (P.candidatesOf name).candidates, x ≠ locked →
        LocksOut (enc.lockPackage P name).state x := by
  cases hl : (P.candidatesOf name).locked with
  | none =>
      simp only [Encoder.lockPackage, hl]
      exact ⟨.refl, fun _ h => by cases h⟩
  | some locked =>
      simp only [Encoder.lockPackage, hl]
      obtain ⟨h₁, h₂⟩ := addLockedPackageClauses_spec hP hg hl hname hfree
      refine ⟨h₁, fun l hl' => ?_⟩
      obtain rfl := Option.some.inj hl'
      exact h₂

theorem excludeAll_spec (hP : P.WellFormed) (hg : EncGood P problem A enc) (name : N)
    (hname : name ∈ enc.state.clausesAddedForPackage) :
    EncSteps P problem A enc ((P.candidatesOf name).excluded.foldl
      (fun enc e => enc.addExclusionClause (.solvable e.1) e.2) enc) ∧
    ∀ e ∈ (P.candidatesOf name).excluded, Excludes ((P.candidatesOf name).excluded.foldl
      (fun enc e => enc.addExclusionClause (.solvable e.1) e.2) enc).state (.solvable e.1) := by
  refine EncSteps.foldl_post (fun (e : S × StringId) s => Excludes s (.solvable e.1))
    (fun _ _ _ hgrow h => Excludes.mono h hgrow) hP hg _ ?_
  intro e' e he hsteps
  exact addExclusionClause_spec hP (EncSteps.good hsteps hP hg) e.1 e.2
    (.inr ⟨name, (EncSteps.grows hsteps hP hg.ok).packages hname, he⟩)

/-- **The candidates of a package are processed**, where none of its solvables is true yet. -/
theorem onCandidatesAvailable_spec (hP : P.WellFormed) (hg : EncGood P problem A enc) {name : N}
    (hname : name ∈ enc.state.clausesAddedForPackage)
    (hfree : A.hard → ∀ x v, P.solvableName x = name → enc.state.IsVar (.solvable x) v →
      enc.state.value v ≠ some true) :
    EncSteps P problem A enc ((P.candidatesOf name).excluded.foldl
        (fun enc e => enc.addExclusionClause (.solvable e.1) e.2) (enc.lockPackage P name)) ∧
      PackageEncoded P ((P.candidatesOf name).excluded.foldl
        (fun enc e => enc.addExclusionClause (.solvable e.1) e.2) (enc.lockPackage P name)).state
        name := by
  obtain ⟨hlock, hlocks⟩ := lockPackage_spec hP hg hname hfree
  have hge := EncSteps.good hlock hP hg
  obtain ⟨hex, hall⟩ := excludeAll_spec hP hge name ((EncSteps.grows hlock hP hg.ok).packages hname)
  refine ⟨hlock.trans hex, fun l hl x hx hne => ?_, hall⟩
  exact (hlocks l hl x hx hne).mono (EncSteps.grows hex hP hge.ok)

/-! ## Registration -/

/-- A variable that is recorded, or already known, is registered. -/
theorem registerForbidTarget_spec (hP : P.WellFormed) (hg : EncGood P problem A enc) {name : N}
    {v : VariableId} {x : S} (hx : x ∈ (P.candidatesOf name).candidates)
    (hv : enc.state.IsVar (.solvable x) v) (hname : A.Ordered P problem → enc.Processed name) :
    EncSteps P problem A enc (enc.registerForbidTarget name v) ∧
      (enc.registerForbidTarget name v).Registered P v := by
  refine ⟨.single (.forbidTarget enc name v x hx hv hname), ?_⟩
  have hxname := hP.candidate_name name x hx
  rcases enc.registerForbidTarget_cases name v with ⟨hm, h⟩ | ⟨hseen, h⟩ | ⟨-, h⟩ <;> rw [h]
  · exact ⟨x, hv, .inl (hxname ▸ hm)⟩
  · obtain ⟨y, hy, ht⟩ := hg.ok.seen v hseen
    exact ⟨y, hy, .inr ht⟩
  · refine ⟨x, hv, .inr (.inl ?_)⟩
    show v ∈ (enc.pendingForbidClauses.insert name _).getD (P.solvableName x) []
    rw [hxname, IndexMap.getD_insert, if_pos rfl]
    exact List.mem_append_right _ List.mem_cons_self

/-- Recording a list of candidates. -/
theorem registerAll_spec (hP : P.WellFormed) (hg : EncGood P problem A enc) (l : List (N × VariableId))
    (h : ∀ c ∈ l, (∃ x ∈ (P.candidatesOf c.1).candidates, enc.state.IsVar (.solvable x) c.2) ∧
      (A.Ordered P problem → enc.Processed c.1)) :
    EncSteps P problem A enc (l.foldl (fun enc c => enc.registerForbidTarget c.1 c.2) enc) ∧
    ∀ c ∈ l, (l.foldl (fun enc c => enc.registerForbidTarget c.1 c.2) enc).Registered P c.2 := by
  induction l generalizing enc with
  | nil => exact ⟨.refl, by simp⟩
  | cons c l ih =>
      obtain ⟨⟨x, hx, hv⟩, hname⟩ := h c List.mem_cons_self
      obtain ⟨hstep, hreg⟩ := registerForbidTarget_spec hP hg hx hv hname
      have hg' := EncSteps.good hstep hP hg
      obtain ⟨hrest, hall⟩ := ih hg' fun c' hc' => by
        obtain ⟨⟨y, hy, hyv⟩, hname'⟩ := h c' (List.mem_cons_of_mem _ hc')
        exact ⟨⟨y, hy, hyv.mono (EncSteps.grows hstep hP hg.ok).vars⟩,
          fun hh => EncSteps.processed hstep (hname' hh)⟩
      refine ⟨hstep.trans hrest, fun c' hc' => ?_⟩
      rcases List.mem_cons.mp hc' with rfl | hc'
      · exact EncSteps.registered hrest hP hg' hreg
      · exact hall c' hc'

end Handlers

end Resolvo
