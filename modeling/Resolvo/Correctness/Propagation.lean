import Resolvo.Lib.Fold
import Resolvo.Correctness.Database

/-!
# `Correctness.Propagation` — what unit propagation does to the state

Propagation only ever appends entries forced by a clause and moves watches: that is one `Deduces` step.
It ends in a state without a conflict it noticed, or with a clause all of whose literals are false.
-/

set_option linter.unusedSectionVars false

namespace Resolvo

open Sat Relation

variable {N S F : Type} [DecidableEq N] [DecidableEq S]

namespace SolverState

/-- All literals of a clause are false, and there are some. -/
def Falsified (s : SolverState N S F) (id : ClauseId) : Prop :=
  s.literals id ≠ [] ∧ ∀ l ∈ s.literals id, s.decisionTracker.eval l = some false

/-- One step of propagation at a level. -/
inductive Deduces (level : Nat) (s : SolverState N S F) : SolverState N S F → Prop where
  /-- Assign the only literal of a clause that is not false. -/
  | push (d : Decision) (hd : s.decisionTracker.assignedValue d.var = none)
      (hmem : d.lit ∈ s.literals d.derivedFrom)
      (hothers : ∀ l ∈ s.literals d.derivedFrom, l ≠ d.lit → s.decisionTracker.eval l = some false) :
      Deduces level s (s.withTracker (s.decisionTracker.push d level))
  /-- Move a watch of a clause that is not binary to another of its literals. -/
  | move (id : ClauseId) (kind : Clause N) (watched : Watches) (watchIndex : Nat) (old new : Literal)
      (hkind : s.clauses[id]? = some kind) (hbinary : kind.isBinary = false)
      (hwatched : s.watchedLiterals[id]? = some (some watched)) (hnew : new ∈ s.literals id) :
      Deduces level s (s.updateWatch id watched watchIndex old new)

/-- Any number of propagation steps. -/
abbrev Propagates (level : Nat) : SolverState N S F → SolverState N S F → Prop :=
  ReflTransGen (Deduces level)

/-- The core invariant at a level: no entry is above it. -/
structure CoreAt (level : Nat) (s : SolverState N S F) : Prop extends Core s where
  pos : 1 ≤ level
  bounded : ∀ e ∈ s.decisionTracker.trail, e.level ≤ level

theorem lt_of_mem_literals {s : SolverState N S F} {id : ClauseId} {l : Literal}
    (h : l ∈ s.literals id) : id < s.clauses.length := by
  by_contra hge
  rw [literals_of_ge (Nat.not_lt.mp hge)] at h
  simp at h

theorem Arena.ne_installRoot {s : SolverState N S F} (h : s.Arena) {id : ClauseId} {l : Literal}
    (hl : l ∈ s.literals id) : id ≠ ClauseId.installRoot := by
  rintro rfl
  have hroot : s.literals ClauseId.installRoot = [] := literals_of_kind h.root
  rw [hroot] at hl
  simp at hl

/-! ## Moving a watch -/

theorem updateWatch_extends (s : SolverState N S F) (id : ClauseId) (watched : Watches)
    (watchIndex : Nat) (old new : Literal) :
    Extends s (s.updateWatch id watched watchIndex old new) :=
  ⟨List.prefix_refl _, List.prefix_refl _, List.prefix_refl _, List.prefix_refl _, fun _ _ h => h⟩

theorem mem_updateWatch {s : SolverState N S F} {id id' : ClauseId} {watched : Watches}
    {watchIndex : Nat} {old new l : Literal}
    (h : id' ∈ (s.updateWatch id watched watchIndex old new).watches.getD l []) :
    id' ∈ s.watches.getD l [] ∨ id' = id := by
  have herase : ∀ l', id' ∈ (s.watches.insert old ((s.watches.getD old []).erase id)).getD l' [] →
      id' ∈ s.watches.getD l' [] := by
    intro l' hl'
    rw [IndexMap.getD_insert] at hl'
    split at hl'
    · next heq => exact heq ▸ List.mem_of_mem_erase hl'
    · exact hl'
  simp only [updateWatch, IndexMap.getD_insert (k := new)] at h
  split at h
  · next heq =>
      rcases List.mem_cons.mp h with rfl | h
      · exact .inr rfl
      · exact .inl (heq ▸ herase new h)
  · exact .inl (herase l h)

/-- The watches of other clauses, and of clauses that are never moved, stay. -/
theorem updateWatch_getElem?_ne (s : SolverState N S F) {id id' : ClauseId} (watched : Watches)
    (watchIndex : Nat) (old new : Literal) (h : id' ≠ id) :
    (s.updateWatch id watched watchIndex old new).watchedLiterals[id']? = s.watchedLiterals[id']? :=
  List.getElem?_set_ne (Ne.symm h)

theorem updateWatch_getElem?_self {s : SolverState N S F} {id : ClauseId} {watched : Watches}
    (watchIndex : Nat) (old new : Literal)
    (h : s.watchedLiterals[id]? = some (some watched)) :
    (s.updateWatch id watched watchIndex old new).watchedLiterals[id]? =
      some (some (if watchIndex = 0 then (new, watched.2) else (watched.1, new))) :=
  List.getElem?_set_self (List.getElem?_eq_some_iff.mp h).1

theorem Watching.updateWatch {s : SolverState N S F} {id id' : ClauseId} {kind : Clause N}
    {watched : Watches} {watchIndex : Nat} {old new l : Literal} (h : s.Watching id' l)
    (hkind : s.clauses[id]? = some kind) (hbinary : kind.isBinary = false)
    (hwatched : s.watchedLiterals[id]? = some (some watched)) :
    (s.updateWatch id watched watchIndex old new).Watching id' l := by
  obtain ⟨kind', w, hk, hw, hl⟩ := h
  by_cases hid : id' = id
  · subst hid
    obtain rfl : kind = kind' := Option.some.inj (hkind.symm.trans hk)
    exact ⟨kind, _, hk, updateWatch_getElem?_self _ _ _ hwatched, fun hb => by simp [hb] at hbinary⟩
  · exact ⟨kind', w, hk, by rw [updateWatch_getElem?_ne _ _ _ _ _ hid]; exact hw, hl⟩

theorem Arena.updateWatch {s : SolverState N S F} (h : s.Arena) {id : ClauseId} {kind : Clause N}
    {watched : Watches} {watchIndex : Nat} {old new : Literal}
    (hkind : s.clauses[id]? = some kind) (hbinary : kind.isBinary = false)
    (hwatched : s.watchedLiterals[id]? = some (some watched)) (hnew : new ∈ s.literals id) :
    (s.updateWatch id watched watchIndex old new).Arena where
  root := h.root
  root_only := h.root_only
  closed := h.closed
  watched_length := by simpa [SolverState.updateWatch] using h.watched_length
  watched := by
    intro id' kind' w hk hw
    by_cases hid : id' = id
    · subst hid
      obtain rfl : kind = kind' := Option.some.inj (hkind.symm.trans hk)
      rw [updateWatch_getElem?_self _ _ _ hwatched] at hw
      have hok := h.watched id' kind watched hkind hwatched
      have hnew' : new ∈ s.kindLiterals kind := literals_of_kind hkind ▸ hnew
      simp only [Option.some.injEq] at hw
      subst hw
      by_cases hi : watchIndex = 0
      · simp only [hi, if_true]
        exact ⟨hnew', hok.snd, fun hb => by simp [hb] at hbinary⟩
      · simp only [hi, if_false]
        exact ⟨hok.fst, hnew', fun hb => by simp [hb] at hbinary⟩
    · rw [updateWatch_getElem?_ne _ _ _ _ _ hid] at hw
      exact h.watched id' kind' w hk hw
  watches := by
    intro l id' hid'
    rcases mem_updateWatch hid' with hold | rfl
    · exact (h.watches l id' hold).updateWatch hkind hbinary hwatched
    · exact ⟨kind, _, hkind, updateWatch_getElem?_self _ _ _ hwatched,
        fun hb => by simp [hb] at hbinary⟩
  assertions := h.assertions
  learnt_length := h.learnt_length
  learnt_ids := h.learnt_ids
  requirers := h.requirers
  derivation := h.derivation
  causes_valid := h.causes_valid

/-! ## Propagation steps keep the core -/

theorem Deduces.extends {level : Nat} {s s' : SolverState N S F} (h : Deduces level s s') :
    Extends s s' := by
  cases h with
  | push d hd hmem hothers => exact withTracker_extends s _
  | move id kind watched watchIndex old new hkind hbinary hwatched hnew =>
      exact updateWatch_extends s id watched watchIndex old new

theorem Deduces.clauses {level : Nat} {s s' : SolverState N S F} (h : Deduces level s s') :
    s'.clauses = s.clauses := by
  cases h <;> rfl

/-- The literals of clauses do not change during propagation. -/
theorem Deduces.literals {level : Nat} {s s' : SolverState N S F} (h : Deduces level s s')
    (id : ClauseId) : s'.literals id = s.literals id := by
  cases h <;> rfl

theorem Deduces.core {level : Nat} {s s' : SolverState N S F} (hc : s.CoreAt level)
    (h : Deduces level s s') : s'.CoreAt level := by
  cases h with
  | push d hd hmem hothers =>
      refine ⟨hc.toCore.push hd hc.pos hc.bounded (lt_of_mem_literals hmem) (.inr ⟨hmem, hothers⟩),
        hc.pos, ?_⟩
      show ∀ e ∈ (s.decisionTracker.push d level).trail, e.level ≤ level
      rw [DecisionTracker.push_trail hc.tracker hd]
      intro e he
      rcases List.mem_append.mp he with he | he
      · exact hc.bounded e he
      · rw [List.mem_singleton.mp he]
  | move id kind watched watchIndex old new hkind hbinary hwatched hnew =>
      exact ⟨⟨hc.tracker, hc.arena.updateWatch hkind hbinary hwatched hnew, hc.supported,
        hc.reasons⟩, hc.pos, hc.bounded⟩

theorem Propagates.core {level : Nat} {s s' : SolverState N S F} (hc : s.CoreAt level)
    (h : Propagates level s s') : s'.CoreAt level := by
  induction h with
  | refl => exact hc
  | tail _ hstep ih => exact hstep.core ih

theorem Propagates.clauses {level : Nat} {s s' : SolverState N S F} (h : Propagates level s s') :
    s'.clauses = s.clauses := by
  induction h with
  | refl => rfl
  | tail _ hstep ih => rw [hstep.clauses, ih]

theorem Propagates.literals {level : Nat} {s s' : SolverState N S F} (h : Propagates level s s')
    (id : ClauseId) : s'.literals id = s.literals id := by
  induction h with
  | refl => rfl
  | tail _ hstep ih => rw [hstep.literals, ih]

/-- Propagation never unassigns. -/
theorem Deduces.eval_mono {level : Nat} {s s' : SolverState N S F} (h : Deduces level s s') {l : Literal} {b : Bool} (hl : s.decisionTracker.eval l = some b) :
    s'.decisionTracker.eval l = some b := by
  cases h with
  | push d hd hmem hothers => exact DecisionTracker.eval_push hd hl
  | move => exact hl

theorem Propagates.eval_mono {level : Nat} {s s' : SolverState N S F} (h : Propagates level s s') {l : Literal} {b : Bool} (hl : s.decisionTracker.eval l = some b) :
    s'.decisionTracker.eval l = some b := by
  induction h with
  | refl => exact hl
  | tail _ hstep ih => exact hstep.eval_mono ih

/-! ## The propagation functions -/

/-- Assigning a literal whose clause has nothing else left: one step, or a falsified clause. -/
theorem assign_spec (level : Nat) {s : SolverState N S F} {l : Literal} {id : ClauseId}
    (conflict : PropagationConflict) (hmem : l ∈ s.literals id)
    (hothers : ∀ l' ∈ s.literals id, l' ≠ l → s.decisionTracker.eval l' = some false) :
    (∀ s', s.assign ⟨l.var, l.satisfyingValue, id⟩ level conflict = .ok s' → Propagates level s s') ∧
    ∀ e, s.assign ⟨l.var, l.satisfyingValue, id⟩ level conflict = .error e →
      e = (conflict, s) ∧ s.Falsified id := by
  simp only [assign]
  refine ⟨fun s' hs => ?_, fun e he => ?_⟩
  · split at hs
    · next b t ht =>
        simp only [Except.ok.injEq] at hs
        subst hs
        rcases DecisionTracker.tryAddDecision_cases ht with ⟨-, hv, rfl⟩ | ⟨-, -, rfl⟩
        · exact .single (.push ⟨l.var, l.satisfyingValue, id⟩ hv (by simpa using hmem)
            (by simpa using hothers))
        · exact .refl
    · cases hs
  · split at he
    · cases he
    · next hn =>
        simp only [Except.error.injEq] at he
        refine ⟨he.symm, List.ne_nil_of_mem hmem, fun l' hl' => ?_⟩
        by_cases hne : l' = l
        · -- the literal itself has the opposite value
          have hv := DecisionTracker.tryAddDecision_eq_none.mp hn
          subst hne
          simp only [DecisionTracker.assignedValue] at hv
          simp [DecisionTracker.eval, Lit.eval, hv, Lit.satisfyingValue]
        · exact hothers l' hl' hne

theorem decideAssertions_spec {level : Nat} {s : SolverState N S F} (hc : s.CoreAt level) :
    (∀ s', s.decideAssertions level = .ok s' → Propagates level s s') ∧
    ∀ c s', s.decideAssertions level = .error (c, s') →
      Propagates level s s' ∧ s'.Falsified c.clause := by
  have hassign : ∀ s₁, Propagates level s s₁ → ∀ a ∈ s.negativeAssertions,
      negative a.1 ∈ s₁.literals a.2 ∧ ∀ l' ∈ s₁.literals a.2, l' ≠ negative a.1 →
        s₁.decisionTracker.eval l' = some false := by
    intro s₁ h₁ a ha
    have hl := (hc.arena.assertions a ha).2
    rw [Propagates.literals h₁, hl]
    simp
  obtain ⟨hok, herr⟩ := List.foldlM_rule
    (f := fun s (a : VariableId × ClauseId) =>
      assign s ⟨a.1, false, a.2⟩ level ⟨a.1, false, a.2⟩) (Propagates level s)
    (fun e => Propagates level s e.2 ∧ e.2.Falsified e.1.clause) s.negativeAssertions .refl
    (fun s₁ a ha h₁ s₂ h₂ =>
      h₁.trans ((assign_spec _ _ (hassign s₁ h₁ a ha).1 (hassign s₁ h₁ a ha).2).1 s₂ h₂))
    (fun s₁ a ha h₁ e he => by
      obtain ⟨rfl, hf⟩ := (assign_spec _ _ (hassign s₁ h₁ a ha).1 (hassign s₁ h₁ a ha).2).2 e he
      exact ⟨h₁, hf⟩)
  exact ⟨hok, fun c s' h => herr _ h⟩

theorem decideLearned_spec {level : Nat} {s : SolverState N S F} :
    (∀ s', s.decideLearned level = .ok s' → Propagates level s s') ∧
    ∀ c s', s.decideLearned level = .error (c, s') →
      Propagates level s s' ∧ s'.Falsified c.clause := by
  have hone : ∀ s₁ : SolverState N S F, ∀ id,
      (∀ s₂, decideLearnt level s₁ id = .ok s₂ → Propagates level s₁ s₂) ∧
      ∀ e, decideLearnt level s₁ id = .error e → e.2 = s₁ ∧ s₁.Falsified e.1.clause := by
    intro s₁ id
    simp only [decideLearnt]
    split
    · next l hl =>
        have hmem : l ∈ s₁.literals id := by simp [hl]
        have hothers : ∀ l' ∈ s₁.literals id, l' ≠ l → s₁.decisionTracker.eval l' = some false := by
          simp [hl]
        obtain ⟨hok, herr⟩ := assign_spec level ⟨l.var, l.satisfyingValue, id⟩ hmem
          hothers
        refine ⟨hok, fun e he => ?_⟩
        obtain ⟨rfl, hf⟩ := herr e he
        exact ⟨rfl, hf⟩
    · refine ⟨fun s₂ h => ?_, fun e he => by cases he⟩
      simp only [Except.ok.injEq] at h
      exact h ▸ .refl
  obtain ⟨hok, herr⟩ := List.foldlM_rule (f := decideLearnt level) (Propagates level s)
    (fun e => Propagates level s e.2 ∧ e.2.Falsified e.1.clause) s.learntClauseIds .refl
    (fun s₁ id _ h₁ s₂ h₂ => h₁.trans ((hone s₁ id).1 s₂ h₂))
    (fun s₁ id _ h₁ e he => by
      obtain ⟨h₂, hf⟩ := (hone s₁ id).2 e he
      rw [h₂]
      exact ⟨h₁, hf⟩)
  exact ⟨hok, fun c s' h => herr _ h⟩

/-- Visiting a clause that watches a literal which became false. -/
theorem visitClause_spec {level : Nat} {s : SolverState N S F} (hc : s.CoreAt level)
    {literal : Literal} (hfalse : s.decisionTracker.eval literal = some false) {id : ClauseId}
    (hw : s.Watching id literal) :
    (∀ s', visitClause level literal s id = .ok s' → Propagates level s s') ∧
    ∀ e, visitClause level literal s id = .error e → e.2 = s ∧ s.Falsified e.1.clause := by
  obtain ⟨kind, w, hk, hw, hbin⟩ := hw
  have hok := hc.arena.watched id kind w hk hw
  rw [← literals_of_kind hk] at hok
  have hother : (if w.1 = literal then w.2 else w.1) ∈ s.literals id := by
    split
    · exact hok.snd
    · exact hok.fst
  simp only [visitClause, hk, hw, Option.join_some]
  generalize hoth : (if w.1 = literal then w.2 else w.1) = other at hother ⊢
  split
  · refine ⟨fun s' h => ?_, fun e h => by cases h⟩
    simp only [Except.ok.injEq] at h
    exact h ▸ .refl
  · by_cases hb : kind.isBinary = true
    · -- a binary clause has no literal but the two it watches
      simp only [hb, if_true]
      have hothers : ∀ l ∈ s.literals id, l ≠ other → s.decisionTracker.eval l = some false := by
        intro l hl hne
        have hl' : l = literal := by
          by_cases h1 : w.1 = literal
          · rw [if_pos h1] at hoth
            exact ((hok.binary hb l hl).resolve_right (hoth ▸ hne)).trans h1
          · rw [if_neg h1] at hoth
            exact ((hok.binary hb l hl).resolve_left (hoth ▸ hne)).trans
              ((hbin hb).resolve_left h1)
        rw [hl']
        exact hfalse
      obtain ⟨h₁, h₂⟩ := assign_spec level ⟨other.var, true, id⟩ hother hothers
      refine ⟨h₁, fun e he => ?_⟩
      obtain ⟨rfl, hf⟩ := h₂ e he
      exact ⟨rfl, hf⟩
    · simp only [hb, Bool.false_eq_true, if_false]
      split
      · next new hnew =>
          refine ⟨fun s' h => ?_, fun e h => by cases h⟩
          simp only [Except.ok.injEq] at h
          subst h
          exact .single (.move id kind w _ literal new hk (by simpa using hb) hw
            (List.mem_of_find?_eq_some hnew))
      · next hnone =>
          have hothers : ∀ l ∈ s.literals id, l ≠ other →
              s.decisionTracker.eval l = some false := by
            intro l hl hne
            have := List.find?_eq_none.mp hnone l hl
            simp only [hne, ne_eq, not_false_eq_true, decide_true, Bool.true_and,
              Bool.not_eq_true] at this
            cases hv : s.decisionTracker.eval l with
            | none => simp [hv] at this
            | some b => simpa [hv] using this
          obtain ⟨h₁, h₂⟩ := assign_spec level ⟨other.var, true, id⟩ hother hothers
          refine ⟨h₁, fun e he => ?_⟩
          obtain ⟨rfl, hf⟩ := h₂ e he
          exact ⟨rfl, hf⟩

/-- Propagation steps keep the clauses of a watch list watching. -/
theorem Watching.propagates {level : Nat} {s s' : SolverState N S F} {id : ClauseId} {l : Literal}
    (h : s.Watching id l) (hp : Propagates level s s') : s'.Watching id l := by
  induction hp with
  | refl => exact h
  | tail _ hstep ih =>
      cases hstep with
      | push => exact ih
      | move id' kind w i old new hkind hbinary hwatched hnew =>
          exact ih.updateWatch hkind hbinary hwatched

/-- **Propagating one trail entry** appends forced entries, or ends in a falsified clause. -/
theorem propagateDecision_spec {level : Nat} {s : SolverState N S F} (hc : s.CoreAt level)
    {d : Decision} (hd : d ∈ s.decisionTracker.stack) :
    (∀ s', s.propagateDecision level d = .ok s' → Propagates level s s') ∧
    ∀ c s', s.propagateDecision level d = .error (c, s') →
      Propagates level s s' ∧ s'.Falsified c.clause := by
  have hfalse : s.decisionTracker.eval ⟨d.var, d.value⟩ = some false :=
    hc.tracker.eval_false_iff.mpr ⟨_, DecisionTracker.mem_trail.mpr ⟨d, hd, rfl⟩, by
      simp [Decision.lit, Lit.neg]⟩
  have hstep : ∀ s₁, Propagates level s s₁ → ∀ id ∈ s.watches.getD ⟨d.var, d.value⟩ [],
      (∀ s₂, visitClause level ⟨d.var, d.value⟩ s₁ id = .ok s₂ → Propagates level s₁ s₂) ∧
      ∀ e, visitClause level ⟨d.var, d.value⟩ s₁ id = .error e →
        e.2 = s₁ ∧ s₁.Falsified e.1.clause := fun s₁ h₁ id hid =>
    visitClause_spec (Propagates.core hc h₁) (Propagates.eval_mono h₁ hfalse)
      ((hc.arena.watches _ id hid).propagates h₁)
  obtain ⟨hok, herr⟩ := List.foldlM_rule (f := visitClause level ⟨d.var, d.value⟩)
    (Propagates level s) (fun e => Propagates level s e.2 ∧ e.2.Falsified e.1.clause)
    (s.watches.getD ⟨d.var, d.value⟩ []) .refl
    (fun s₁ id hid h₁ s₂ h₂ => h₁.trans ((hstep s₁ h₁ id hid).1 s₂ h₂))
    (fun s₁ id hid h₁ e he => by
      obtain ⟨h₂, hf⟩ := (hstep s₁ h₁ id hid).2 e he
      rw [h₂]
      exact ⟨h₁, hf⟩)
  exact ⟨hok, fun c s' h => herr _ h⟩

end SolverState

end Resolvo
