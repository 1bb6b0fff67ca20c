import Resolvo.Correctness.Watches

/-!
# `Correctness.Vigilance` — what a search does between two rounds of propagation

Assertions are assigned at the start of every propagation, stranded gates are forced, conflicts cut the
trail back, and clauses are added. Each of these leaves every clause with a watch that is not false on the
propagated part of the trail, and every assertion true or false at the current level only.
-/

set_option linter.unusedSectionVars false

namespace Resolvo

open Sat Relation

variable {N S F : Type} [DecidableEq N] [DecidableEq S]

namespace SolverState

variable {level : Nat} {exempt : ClauseId → Prop} {s s' : SolverState N S F}

/-! ## Forced entries -/

/-- Assign the only literal of a clause that is not false. -/
inductive Assigns (level : Nat) (s : SolverState N S F) : SolverState N S F → Prop where
  | push (d : Decision) (hd : s.decisionTracker.assignedValue d.var = none)
      (hmem : d.lit ∈ s.literals d.derivedFrom)
      (hothers : ∀ l ∈ s.literals d.derivedFrom, l ≠ d.lit → s.decisionTracker.eval l = some false) :
      Assigns level s (s.withTracker (s.decisionTracker.push d level))

/-- Any number of forced entries. -/
abbrev Forces (level : Nat) : SolverState N S F → SolverState N S F → Prop := ReflTransGen (Assigns level)

theorem Forces.propagates (h : Forces level s s') : Propagates level s s' := by
  induction h with
  | refl => exact .refl
  | tail _ hstep ih =>
      cases hstep with
      | push d hd hmem hothers => exact ih.tail (.push d hd hmem hothers)

theorem Forces.core (hc : s.CoreAt level) (h : Forces level s s') : s'.CoreAt level :=
  Propagates.core hc h.propagates

theorem Forces.eval_mono (h : Forces level s s') {l : Literal} {b : Bool}
    (hl : s.decisionTracker.eval l = some b) : s'.decisionTracker.eval l = some b :=
  Propagates.eval_mono h.propagates hl

/-- Propagation records no assertions. -/
theorem Propagates.assertions (h : Propagates level s s') :
    s'.negativeAssertions = s.negativeAssertions ∧ s'.learntClauseIds = s.learntClauseIds := by
  induction h with
  | refl => exact ⟨rfl, rfl⟩
  | tail _ hstep ih => cases hstep <;> exact ih

theorem Propagates.isAssertion (h : Propagates level s s') {id : ClauseId} {l : Literal} :
    s'.IsAssertion id l ↔ s.IsAssertion id l := by
  unfold IsAssertion
  rw [Propagates.literals h, (Propagates.assertions h).1, (Propagates.assertions h).2]

/-- An entry of the level waits for propagation. -/
theorem Vigilant.push (h : Vigilant level exempt s) {d : Decision}
    (hd : s.decisionTracker.assignedValue d.var = none)
    (hc : (s.withTracker (s.decisionTracker.push d level)).CoreAt level) :
    Vigilant level exempt (s.withTracker (s.decisionTracker.push d level)) := by
  have hw := h.toWatchful.push hd hc
  refine ⟨?_, h.fresh.push h.tracker hd⟩
  rw [show (s.withTracker (s.decisionTracker.push d level)).decisionTracker.done = _ from
    DecisionTracker.done_push h.tracker hd level]
  exact hw

/-- Forced entries keep the invariant of propagation. -/
theorem Forces.vigilant (h : Forces level s s') (hv : Vigilant level exempt s) :
    Vigilant level exempt s' := by
  induction h with
  | refl => exact hv
  | tail hpre hstep ih =>
      have hcore := Forces.core hv.toCoreAt (.tail hpre hstep)
      cases hstep with
      | push d hd hmem hothers => exact ih.push hd hcore

theorem assign_forces {l : Literal} {id : ClauseId} {conflict : PropagationConflict}
    (hmem : l ∈ s.literals id)
    (hothers : ∀ l' ∈ s.literals id, l' ≠ l → s.decisionTracker.eval l' = some false)
    (h : s.assign ⟨l.var, l.satisfyingValue, id⟩ level conflict = .ok s') : Forces level s s' := by
  rcases assign_cases h with ⟨hv, rfl⟩ | ⟨-, rfl⟩
  · refine .single (.push _ hv ?_ ?_)
    · rw [Decision.lit_of_literal]
      exact hmem
    · rw [Decision.lit_of_literal]
      exact hothers
  · exact .refl

/-- Assigning fails on a literal that is false. -/
theorem assign_false {l : Literal} {id : ClauseId} {conflict : PropagationConflict}
    {e : PropagationConflict × SolverState N S F}
    (h : s.assign ⟨l.var, l.satisfyingValue, id⟩ level conflict = .error e) :
    s.decisionTracker.eval l = some false := by
  unfold SolverState.assign at h
  split at h
  · cases h
  · next hn =>
      have hv := DecisionTracker.tryAddDecision_eq_none.mp hn
      unfold DecisionTracker.eval Lit.eval
      rw [show s.decisionTracker.map.value l.var = some (!l.satisfyingValue) from hv]
      simp [Lit.satisfyingValue]

/-! ## Assertions -/

/-- A false assertion is false by an entry of the level. -/
def AssertionsAt (level : Nat) (s : SolverState N S F) : Prop :=
  ∀ id l, s.IsAssertion id l → ∀ e ∈ s.decisionTracker.trail, e.lit = l.neg → e.level = level

/-- Every assertion is true. -/
def AssertTrue (s : SolverState N S F) : Prop :=
  ∀ id l, s.IsAssertion id l → s.decisionTracker.eval l = some true

theorem AssertTrue.propagates (ha : AssertTrue s) (h : Propagates level s s') : AssertTrue s' :=
  fun id l hl => Propagates.eval_mono h (ha id l ((Propagates.isAssertion h).mp hl))

/-- A true assertion is not false. -/
theorem AssertTrue.assertionsAt (ha : AssertTrue s) (ht : s.decisionTracker.WF) : AssertionsAt level s := by
  intro id l hl e he hneg
  have hfalse : s.decisionTracker.eval l = some false := ht.eval_false_iff.mpr ⟨e, he, hneg⟩
  rw [ha id l hl] at hfalse
  cases hfalse

/-- Forced entries are of the level. -/
theorem AssertionsAt.forces (ha : AssertionsAt level s) (hc : s.CoreAt level) (h : Forces level s s') :
    AssertionsAt level s' := by
  induction h with
  | refl => exact ha
  | tail hpre hstep ih =>
      cases hstep with
      | push d hd hmem hothers =>
          intro id l hl e he hneg
          have he' : e ∈ (DecisionTracker.push _ d level).trail := he
          rw [DecisionTracker.push_trail (Forces.core hc hpre).tracker hd] at he'
          rcases List.mem_append.mp he' with he' | he'
          · exact ih id l hl e he' hneg
          · rw [List.mem_singleton.mp he']

/-- Assigning assertions one after the other: all of them are true in the end, or one of them is false. -/
theorem foldlM_assertions {α : Type} {s₀ : SolverState N S F}
    {f : SolverState N S F → α → PropagateResult N S F (SolverState N S F)}
    (target : α → Option (ClauseId × Literal)) (l : List α)
    (hskip : ∀ s, ∀ a ∈ l, Forces level s₀ s → target a = none → f s a = .ok s)
    (hassign : ∀ s, ∀ a ∈ l, Forces level s₀ s → ∀ id x, target a = some (id, x) →
      s₀.IsAssertion id x ∧ f s a = s.assign ⟨x.var, x.satisfyingValue, id⟩ level
        ⟨x.var, x.satisfyingValue, id⟩) (hs : Forces level s₀ s) :
    (∀ s', l.foldlM f s = .ok s' → Forces level s s' ∧
      ∀ a ∈ l, ∀ id x, target a = some (id, x) → s'.decisionTracker.eval x = some true) ∧
    ∀ c s', l.foldlM f s = .error (c, s') → Forces level s s' ∧
      ∃ x, s₀.IsAssertion c.clause x ∧ s'.decisionTracker.eval x = some false := by
  induction l generalizing s with
  | nil =>
      refine ⟨fun s' h => ?_, fun c s' h => by cases h⟩
      obtain rfl : s = s' := Except.ok.inj h
      exact ⟨.refl, by simp⟩
  | cons a l ih =>
      simp only [List.foldlM_cons, bind, Except.bind]
      have ih' := fun {s : SolverState N S F} (hs : Forces level s₀ s) => ih
        (fun s b hb => hskip s b (List.mem_cons_of_mem _ hb))
        (fun s b hb => hassign s b (List.mem_cons_of_mem _ hb)) hs
      cases ht : target a with
      | none =>
          rw [hskip s a List.mem_cons_self hs ht]
          obtain ⟨hok, herr⟩ := ih' hs
          refine ⟨fun s' h => ?_, herr⟩
          obtain ⟨hf, htrue⟩ := hok s' h
          refine ⟨hf, fun b hb id x hx => ?_⟩
          rcases List.mem_cons.mp hb with rfl | hb
          · rw [ht] at hx
            cases hx
          · exact htrue b hb id x hx
      | some t =>
          obtain ⟨id, x⟩ := t
          obtain ⟨hx, hf⟩ := hassign s a List.mem_cons_self hs id x ht
          rw [hf]
          have hlits : s.literals id = [x] := by
            rw [Propagates.literals hs.propagates]
            exact hx.1
          cases ha : s.assign ⟨x.var, x.satisfyingValue, id⟩ level ⟨x.var, x.satisfyingValue, id⟩ with
          | error e =>
              refine ⟨(fun s' h => by cases h), fun c s' h => ?_⟩
              obtain rfl : e = (c, s') := Except.error.inj h
              have hfalse := assign_false ha
              obtain ⟨rfl, rfl⟩ := Prod.mk.inj (assign_error ha)
              exact ⟨.refl, x, hx, hfalse⟩
          | ok s₁ =>
              have h₁ : Forces level s s₁ := assign_forces (by simp [hlits]) (by simp [hlits]) ha
              obtain ⟨hok, herr⟩ := ih' (hs.trans h₁)
              refine ⟨fun s' h => ?_, fun c s' h => ?_⟩
              · obtain ⟨h₂, htrue⟩ := hok s' h
                refine ⟨h₁.trans h₂, fun b hb id' x' hx' => ?_⟩
                rcases List.mem_cons.mp hb with rfl | hb
                · obtain ⟨rfl, rfl⟩ := Prod.mk.inj (Option.some.inj (ht.symm.trans hx'))
                  exact Forces.eval_mono h₂ (assign_true ha)
                · exact htrue b hb id' x' hx'
              · obtain ⟨h₂, hx'⟩ := herr c s' h
                exact ⟨h₁.trans h₂, hx'⟩

/-- The assertion a learnt clause is, if it is one. -/
def learntAssertion (s : SolverState N S F) (id : ClauseId) : Option (ClauseId × Literal) :=
  match s.literals id with
  | [l] => some (id, l)
  | _ => none

/-- **The start of propagation** makes every assertion true, or finds one that is false. -/
theorem decideAll_spec (hc : s.CoreAt level) :
    (∀ s', (s.decideAssertions level >>= fun s => s.decideLearned level) = .ok s' →
      Forces level s s' ∧ AssertTrue s') ∧
    ∀ c s', (s.decideAssertions level >>= fun s => s.decideLearned level) = .error (c, s') →
      Forces level s s' ∧ ∃ l, s.IsAssertion c.clause l ∧ s'.decisionTracker.eval l = some false := by
  have hnegative := foldlM_assertions (s := s) (f := fun s (a : VariableId × ClauseId) =>
      s.assign ⟨a.1, false, a.2⟩ level ⟨a.1, false, a.2⟩) (fun a => some (a.2, negative a.1))
    s.negativeAssertions (fun s a _ _ h => by cases h) (fun s₁ a ha _ id x hx => by
      obtain ⟨rfl, rfl⟩ := Prod.mk.inj (Option.some.inj hx)
      exact ⟨⟨(hc.arena.assertions a ha).2, .inl ha⟩, rfl⟩) .refl
  have hlearnt : ∀ s₁, Forces level s s₁ → _ := fun s₁ h₁ => foldlM_assertions (s := s₁)
    (f := decideLearnt level) (learntAssertion s) s.learntClauseIds (fun s₂ id _ h₂ h => by
      unfold learntAssertion at h
      unfold decideLearnt
      rw [Propagates.literals h₂.propagates]
      -- a clause that is no assertion does not consist of one literal
      rcases hlits : s.literals id with _ | ⟨l, _ | ⟨l', rest⟩⟩
      · rfl
      · rw [hlits] at h
        cases h
      · rfl) (fun s₂ id hid h₂ id' x hx => by
      unfold learntAssertion at hx
      split at hx
      · next l hl =>
          obtain ⟨rfl, rfl⟩ := Prod.mk.inj (Option.some.inj hx)
          refine ⟨⟨hl, .inr hid⟩, ?_⟩
          unfold decideLearnt
          rw [Propagates.literals h₂.propagates, hl]
      · cases hx) h₁
  have hbind : (s.decideAssertions level >>= fun s => s.decideLearned level) =
      match s.decideAssertions level with
      | .error e => .error e
      | .ok s₁ => s₁.decideLearned level := by
    simp only [bind, Except.bind]
    cases s.decideAssertions level <;> rfl
  rw [hbind]
  cases hneg : s.decideAssertions level with
  | error e =>
      refine ⟨(fun s' h => by cases h), fun c s' h => ?_⟩
      obtain rfl : e = (c, s') := Except.error.inj h
      exact hnegative.2 c s' hneg
  | ok s₁ =>
      obtain ⟨h₁, htrue₁⟩ := hnegative.1 s₁ hneg
      have hids : s₁.learntClauseIds = s.learntClauseIds := (Propagates.assertions h₁.propagates).2
      have hl := hlearnt s₁ h₁
      rw [← hids] at hl
      refine ⟨fun s' h => ?_, fun c s' h => ?_⟩
      · obtain ⟨h₂, htrue₂⟩ := hl.1 s' h
        refine ⟨h₁.trans h₂, fun id l hal => ?_⟩
        obtain ⟨hlits, hor⟩ := (Propagates.isAssertion (Forces.propagates (h₁.trans h₂))).mp hal
        rcases hor with hneg | hid
        · have hlneg : l = negative l.var := by
            have := (hc.arena.assertions _ hneg).2
            rw [hlits] at this
            exact List.singleton_inj.mp this
          have := htrue₁ _ hneg id (negative l.var) rfl
          rw [← hlneg] at this
          exact Forces.eval_mono h₂ this
        · refine htrue₂ id (hids ▸ hid) id l ?_
          unfold learntAssertion
          rw [hlits]
      · obtain ⟨h₂, hx⟩ := hl.2 c s' h
        exact ⟨h₁.trans h₂, hx⟩

/-- A clause found false at the start of propagation has a literal of the current level. -/
theorem AssertionsAt.current (ha : AssertionsAt level s) (hc : s.CoreAt level)
    (h : Forces level s s') {id : ClauseId} {l : Literal} (hl : s.IsAssertion id l)
    (hfalse : s'.decisionTracker.eval l = some false) :
    s'.Falsified id ∧ ∃ e ∈ s'.decisionTracker.trail, e.level = level ∧ e.lit.neg ∈ s'.literals id := by
  have hl' := (Propagates.isAssertion h.propagates).mpr hl
  have hlits : s'.literals id = [l] := hl'.1
  obtain ⟨e, he, hneg⟩ := (Forces.core hc h).tracker.eval_false_iff.mp hfalse
  refine ⟨⟨by simp [hlits], by simpa [hlits] using hfalse⟩, e, he, ha.forces hc h id l hl' e he hneg, ?_⟩
  rw [hlits, hneg, Lit.neg_neg]
  exact List.mem_singleton_self l

/-! ## Stranded gates -/

/-- Repairing stranded gates assigns entries that their requirers force. -/
theorem forceStuckGates_forces (hc : s.CoreAt level) (level' : Nat) (hlevel : level' = level) :
    Forces level s (s.forceStuckGates level').2 := by
  subst hlevel
  unfold forceStuckGates
  refine List.foldl_rule (fun (r : Bool × SolverState N S F) => Forces level' s r.2) _ .refl ?_
  rintro ⟨forced, s₁⟩ ⟨gate, requirers⟩ he h₁
  dsimp only at h₁ ⊢
  split
  · exact h₁
  · next hgate =>
      split
      · exact h₁
      · next parent reason hfind =>
          have hcore₁ := Forces.core hc h₁
          have hmem : (parent, reason) ∈ requirers := List.mem_of_find?_eq_some hfind
          have htrue : s₁.value parent = some true := by simpa using List.find?_some hfind
          -- the clause of the requirer has the gate as its only other literal
          have hlits : s₁.literals reason = [positive gate, negative parent] := by
            rw [Propagates.literals h₁.propagates]
            exact literals_of_kind (hc.arena.requirers _ he _ hmem)
          split
          · next b t ht =>
              rcases DecisionTracker.tryAddDecision_cases ht with ⟨-, hv, rfl⟩ | ⟨-, hv, rfl⟩
              · refine h₁.tail (.push ⟨gate, true, reason⟩ hv ?_ ?_)
                · rw [hlits]
                  exact List.mem_cons_self
                · intro l hl hne
                  rw [hlits] at hl
                  rcases List.mem_cons.mp hl with rfl | hl
                  · exact absurd rfl hne
                  · obtain rfl := List.mem_singleton.mp hl
                    unfold DecisionTracker.eval Lit.eval
                    rw [show s₁.decisionTracker.map.value (negative parent).var = some true from htrue]
                    rfl
              · exact h₁
          · exact h₁

/-! ## Adding a clause -/

theorem IsAssertion.mono (ha : s.Arena) (he : Extends s s')
    (hneg : ∀ a ∈ s.negativeAssertions, a ∈ s'.negativeAssertions)
    (hlearnt : ∀ i ∈ s.learntClauseIds, i ∈ s'.learntClauseIds) {id : ClauseId} {l : Literal}
    (h : s.IsAssertion id l) : s'.IsAssertion id l := by
  obtain ⟨hlits, hor⟩ := h
  refine ⟨?_, hor.imp (hneg _) (hlearnt _)⟩
  rw [ha.literals_extends he (lt_of_mem_literals (l := l) (by simp [hlits])), hlits]

/-- The lists only read the arena and the watches. -/
theorem WatchLists.congr (h : WatchLists s) (hclauses : s'.clauses = s.clauses)
    (hwatched : s'.watchedLiterals = s.watchedLiterals) (hwatches : s'.watches = s.watches)
    (hassert : ∀ id l, s.IsAssertion id l → s'.IsAssertion id l) : WatchLists s' where
  mem_iff := by
    rw [hwatched, hwatches]
    exact h.mem_iff
  nodup := by
    rw [hwatches]
    exact h.nodup
  distinct := by
    rw [hclauses, hwatched]
    exact h.distinct
  unwatched := by
    intro id hid
    rw [hwatched] at hid
    exact (h.unwatched id hid).imp_right fun ⟨l, hl⟩ => ⟨l, hassert id l hl⟩

theorem nodup_startWatching {m : IndexMap Literal (List ClauseId)} {w : Watches} {id : ClauseId}
    (hm : ∀ l, (m.getD l []).Nodup) (hid : ∀ l, id ∉ m.getD l []) (l : Literal) :
    ((startWatching m w id).getD l []).Nodup := by
  have hcons : ∀ l, (id :: m.getD l []).Nodup := fun l => List.nodup_cons.mpr ⟨hid l, hm l⟩
  unfold startWatching
  dsimp only
  split
  · rw [IndexMap.getD_insert]
    split
    · exact hcons _
    · exact hm l
  · next hne =>
      rw [IndexMap.getD_insert]
      split
      · rw [IndexMap.getD_insert, if_neg (Ne.symm hne)]
        exact hcons _
      · rw [IndexMap.getD_insert]
        split
        · exact hcons _
        · exact hm l

/-- A clause that is added is linked to the literals it watches, or is an assertion. -/
theorem WatchLists.append (h : WatchLists s) (ha : s.Arena) {watched : Option Watches}
    {kind : Clause N} (hclauses : s'.clauses = s.clauses ++ [kind])
    (hwatched : s'.watchedLiterals = s.watchedLiterals ++ [watched])
    (hwatches : s'.watches = (s.addClause watched kind).2.watches)
    (hdistinct : kind.isBinary = false → ∀ w, watched = some w → w.1 ≠ w.2)
    (hassert : ∀ id l, s.IsAssertion id l → s'.IsAssertion id l)
    (hnew : watched = none → ∃ l, s'.IsAssertion s.clauses.length l) : WatchLists s' := by
  have hlast : s'.watchedLiterals[s.clauses.length]? = some watched := by
    rw [hwatched, ← ha.watched_length]
    exact List.getElem?_concat_length
  have hold : ∀ id : ClauseId, id ≠ s.clauses.length →
      s'.watchedLiterals[id]? = s.watchedLiterals[id]? := by
    intro id hid
    rw [hwatched]
    by_cases hlt : id < s.watchedLiterals.length
    · exact List.getElem?_append_left hlt
    · rw [List.getElem?_eq_none (Nat.not_lt.mp hlt), List.getElem?_eq_none]
      rw [← ha.watched_length] at hid
      have hge := Nat.not_lt.mp hlt
      have hgt := Nat.lt_of_le_of_ne hge (Ne.symm hid)
      rw [List.length_append, List.length_singleton]
      exact hgt
  have hfresh : ∀ l, s.clauses.length ∉ s.watches.getD l [] := by
    intro l hm
    obtain ⟨w, hw, -⟩ := (h.mem_iff l _).mp hm
    have hlt := (List.getElem?_eq_some_iff.mp hw).1
    rw [ha.watched_length] at hlt
    exact Nat.lt_irrefl _ hlt
  constructor
  case mem_iff =>
    intro l id
    rw [hwatches]
    by_cases hid : id = s.clauses.length
    · subst hid
      rw [hlast]
      cases watched with
      | none =>
          show _ ∈ s.watches.getD l [] ↔ _
          exact ⟨fun hm => absurd hm (hfresh l), fun ⟨w, hw, _⟩ => by cases Option.some.inj hw⟩
      | some w =>
          show _ ∈ (startWatching s.watches w s.clauses.length).getD l [] ↔ _
          rw [mem_startWatching]
          constructor
          · rintro (hm | ⟨-, hl⟩)
            · exact absurd hm (hfresh l)
            · exact ⟨w, rfl, hl⟩
          · rintro ⟨w', hw', hl⟩
            obtain rfl := Option.some.inj (Option.some.inj hw')
            exact .inr ⟨rfl, hl⟩
    · rw [hold id hid, ← h.mem_iff]
      cases watched with
      | none => exact Iff.rfl
      | some w =>
          show _ ∈ (startWatching s.watches w s.clauses.length).getD l [] ↔ _
          rw [mem_startWatching]
          exact ⟨fun hm => hm.resolve_right fun hm => hid hm.1, .inl⟩
  case nodup =>
    rw [hwatches]
    cases watched with
    | none => exact h.nodup
    | some w => exact nodup_startWatching h.nodup hfresh
  case distinct =>
    intro id kind' w hk hb hw
    by_cases hid : id = s.clauses.length
    · subst hid
      rw [hlast] at hw
      rw [hclauses, List.getElem?_concat_length] at hk
      obtain rfl := Option.some.inj hk
      exact hdistinct hb w (Option.some.inj hw)
    · rw [hold id hid] at hw
      have hlt : id < s.clauses.length := by
        rw [← ha.watched_length]
        exact (List.getElem?_eq_some_iff.mp hw).1
      rw [hclauses, List.getElem?_append_left hlt] at hk
      exact h.distinct id kind' w hk hb hw
  case unwatched =>
    intro id hw
    by_cases hid : id = s.clauses.length
    · subst hid
      rw [hlast] at hw
      exact .inr (hnew (Option.some.inj hw))
    · rw [hold id hid] at hw
      exact (h.unwatched id hw).imp_right fun ⟨l, hl⟩ => ⟨l, hassert id l hl⟩

/-! ## Cutting the trail back -/

/-- After a conflict: no clause has both watches false on a part of the trail, and the rest of the trail
    is of the current level. -/
def Alert (level : Nat) (s : SolverState N S F) : Prop :=
  ∃ part, Watchful level part (fun _ => False) s ∧
    ∀ e ∈ s.decisionTracker.trail, e ∈ part ∨ e.level = level

theorem Vigilant.alert (h : Vigilant level (fun _ => False) s) : Alert level s :=
  ⟨_, h.toWatchful, fun e he =>
    (s.decisionTracker.mem_done_or he).imp_right fun he => h.fresh e he⟩

theorem Fresh.of_propagated {t : DecisionTracker} (h : t.propagateIndex = t.stack.length) :
    Fresh level t := by
  intro e he
  rw [h, ← DecisionTracker.trail_length, List.drop_length] at he
  cases he

/-- Every entry counts as propagated after entries were popped. -/
theorem Rewound.fresh {t t' : DecisionTracker} (hr : t.Rewound t') {e : Entry VariableId ClauseId}
    (he : e ∈ t.trail) (hout : e ∉ t'.trail) : Fresh level t' := by
  rcases hr.propagate with rfl | h
  · exact absurd he hout
  · exact .of_propagated h

/-- A clause has a watch that is not false on a trail that was cut back below the level of a conflict. -/
theorem Alert.visited (h : Alert level s) {part : Trail VariableId ClauseId}
    (hpart : ∀ e ∈ part, e ∈ s.decisionTracker.trail ∧ e.level ≠ level) {id : ClauseId} {w : Watches}
    (hw : s.watchedLiterals[id]? = some (some w)) : ¬ (part.Falsifies w.1 ∧ part.Falsifies w.2) := by
  obtain ⟨part', hv, hrest⟩ := h
  have hsub : part ⊆ part' := fun e he =>
    (hrest e (hpart e he).1).resolve_right (hpart e he).2
  rintro ⟨h₁, h₂⟩
  exact hv.visited id w (fun hx => hx) hw ⟨h₁.mono hsub, h₂.mono hsub⟩

/-- An assertion is not false on a trail that was cut back below the level of a conflict. -/
theorem AssertionsAt.cut {target : Nat} (h : AssertionsAt level s)
    (hassert : ∀ id l, s'.IsAssertion id l → s.IsAssertion id l)
    (hpart : ∀ e ∈ s'.decisionTracker.trail, e ∈ s.decisionTracker.trail ∧ e.level ≠ level) :
    AssertionsAt target s' := by
  intro id l hl e he hneg
  exact absurd (h id l (hassert id l hl) e (hpart e he).1 hneg) (hpart e he).2

/-- Without a trail there is nothing to notice. -/
theorem Vigilant.of_empty (hc : s.CoreAt level) (hl : WatchLists s)
    (hnil : s.decisionTracker.trail = []) : Vigilant level exempt s := by
  have hdone : s.decisionTracker.done = [] := by
    unfold DecisionTracker.done
    rw [hnil, List.take_nil]
  refine ⟨⟨hc, hl, s.decisionTracker.done_subset, fun id w _ _ hboth => ?_⟩, fun e he => ?_⟩
  · rw [hdone] at hboth
    exact Trail.falsifies_nil hboth.1
  · rw [hnil, List.drop_nil] at he
    cases he

/-! ## Learning -/

/-- A learnt clause watches two different literals, or is an assertion. -/
theorem learnt_watches {k : LearntClauseId} {literals : List Literal} {l : Literal}
    (hnd : (literals.map Lit.var).Nodup) (hlast : literals.getLast? = some l) :
    ((WatchedLiterals.learnt (N := N) k literals).1 = none ∧ literals = [l]) ∨
    ∃ first, first ≠ l ∧ (WatchedLiterals.learnt (N := N) k literals).1 = some (first, l) := by
  unfold WatchedLiterals.learnt
  dsimp only
  by_cases hone : literals.length = 1
  · left
    obtain ⟨x, rfl⟩ := List.length_eq_one_iff.mp hone
    obtain rfl : x = l := by simpa using hlast
    exact ⟨if_pos hone, rfl⟩
  · right
    rw [if_neg hone]
    cases literals with
    | nil => cases hlast
    | cons first rest =>
        refine ⟨first, ?_, by rw [hlast]; rfl⟩
        rintro rfl
        have hrest : rest ≠ [] := by
          rintro rfl
          exact hone rfl
        have hmem : first ∈ rest := by
          rw [List.getLast?_cons_of_ne_nil hrest] at hlast
          exact List.mem_of_getLast? hlast
        exact (List.nodup_cons.mp hnd).1 (List.mem_map.mpr ⟨first, hmem, rfl⟩)

/-- **Learning from a conflict**: the trail is cut back, and the literal that the learnt clause asserts is
    the only entry that waits. -/
theorem Alert.learn (P : DependencyProvider N S) (A : ActivityParams F) {target : Nat}
    {id learntId : ClauseId} {l : Literal} (h : Alert level s) (hassert : AssertionsAt level s)
    (hlearned : Learned s level target learntId l s') (hasserts : Asserts s level target learntId l s')
    (hanalyze : s.analyze P A level id = some (target, learntId, l, s'))
    (hcur : ∃ e ∈ s.decisionTracker.trail, e.level = level) :
    Vigilant target (fun _ => False) s' ∧ AssertionsAt target s' := by
  obtain ⟨r, t, -, -, -, hid, heq⟩ := analyze_eq P A hanalyze
  generalize hlearnt : swapFront r.analysis.learnt r.analysis.highestLevelIdx ++ [l] = learnt at hid heq
  generalize hs₁ : learnt.foldl (bumpActivity P A) s = s₁ at hid heq
  have hsame : SameSearch s s₁ := hs₁ ▸ bumpAll_same P A s learnt
  have hvisited : ∀ part : Trail VariableId ClauseId,
      (∀ e ∈ part, e ∈ s.decisionTracker.trail ∧ e.level ≠ level) → ∀ {i : ClauseId} {w : Watches},
        s.watchedLiterals[i]? = some (some w) → ¬ (part.Falsifies w.1 ∧ part.Falsifies w.2) :=
    fun part hpart _ _ hw => h.visited hpart hw
  obtain ⟨_, hwatch, -⟩ := h
  have harena := hwatch.arena
  have harena₁ := harena.same hsame
  have hlits : s'.literals learntId = learnt := by
    rw [heq, hid]
    exact addLearntClause_literals s₁ learnt r.learntWhy
  have hlength : learntId = s.clauses.length := by
    rw [hid, ← hsame.clauses]
    rfl
  have hids : s'.learntClauseIds = s.learntClauseIds ++ [learntId] := by
    rw [heq, ← hsame.learntClauseIds, hid]
    rfl
  have hneg : s'.negativeAssertions = s.negativeAssertions := by
    rw [heq, ← hsame.negativeAssertions]
    rfl
  -- entries that are left are below the conflict
  have hcut : ∀ e ∈ s'.decisionTracker.trail, e ∈ s.decisionTracker.trail ∧ e.level ≠ level := by
    intro e he
    rw [hasserts.cut, List.mem_filter, decide_eq_true_eq] at he
    have := hasserts.lt
    exact ⟨he.1, by omega⟩
  have hold : ∀ {i x}, s.IsAssertion i x → s'.IsAssertion i x := by
    intro i x hx
    refine hx.mono harena hlearned.extends_ (fun a ha => ?_) fun i hi => ?_
    · rw [hneg]
      exact ha
    · rw [hids]
      exact List.mem_append_left _ hi
  have hwatches := learnt_watches (N := N) (k := s₁.learntClauses.length) hasserts.distinct hasserts.last
  rw [hlits] at hwatches
  have hlists : WatchLists s' := by
    have hlists₁ : WatchLists s₁ := by
      refine hwatch.lists.congr hsame.clauses hsame.watchedLiterals hsame.watches fun i x hx => ?_
      exact hx.mono harena hsame.extends_ (fun a ha => hsame.negativeAssertions ▸ ha)
        fun i hi => hsame.learntClauseIds ▸ hi
    have hclauses : s'.clauses = s₁.clauses ++ [.learnt s₁.learntClauses.length] := by
      rw [heq]
      rfl
    have hwatched : s'.watchedLiterals = s₁.watchedLiterals ++
        [(WatchedLiterals.learnt (N := N) s₁.learntClauses.length learnt).1] := by
      rw [heq]
      rfl
    refine hlists₁.append harena₁ hclauses hwatched (by rw [heq]; rfl) ?_ ?_ ?_
    · intro _ w hw
      rcases hwatches with ⟨hnone, -⟩ | ⟨first, hne, hsome⟩
      · rw [hnone] at hw
        cases hw
      · rw [hsome] at hw
        obtain rfl := Option.some.inj hw
        exact hne
    · intro i x hx
      refine hold ?_
      refine ⟨?_, ?_⟩
      · rw [← hsame.literals harena]
        exact hx.1
      · rw [← hsame.negativeAssertions, ← hsame.learntClauseIds]
        exact hx.2
    · intro hnone
      rcases hwatches with ⟨-, hone⟩ | ⟨first, -, hsome⟩
      · refine ⟨l, ?_, .inr ?_⟩
        · rw [hsame.clauses, ← hlength, hlits, hone]
        · rw [hids, hsame.clauses, ← hlength]
          exact List.mem_append_right _ (List.mem_singleton_self _)
      · rw [hsome] at hnone
        cases hnone
  have hwl : s'.watchedLiterals = s.watchedLiterals ++
      [(WatchedLiterals.learnt (N := N) s₁.learntClauses.length learnt).1] := by
    rw [heq, ← hsame.watchedLiterals]
    rfl
  refine ⟨⟨⟨hlearned.core, hlists, s'.decisionTracker.done_subset, fun i w _ hw hboth => ?_⟩, ?_⟩, ?_⟩
  · by_cases hi : i < s.clauses.length
    · rw [hwl, List.getElem?_append_left (harena.watched_length.symm ▸ hi)] at hw
      exact hvisited _ (fun e he => hcut e (s'.decisionTracker.done_subset e he)) hw hboth
    · -- the learnt clause watches the asserted literal
      have hlast : w.2 = l := by
        have hnew : (WatchedLiterals.learnt (N := N) s₁.learntClauses.length learnt).1 = some w := by
          rw [hwl, List.getElem?_append_right (harena.watched_length.symm ▸ Nat.not_lt.mp hi)] at hw
          exact List.mem_singleton.mp (List.mem_of_getElem? hw) |>.symm
        rcases hwatches with ⟨hnone, -⟩ | ⟨first, -, hsome⟩
        · rw [hnone] at hnew
          cases hnew
        · rw [hsome] at hnew
          exact (congrArg Prod.snd (Option.some.inj hnew)).symm
      obtain ⟨e, he, hneg⟩ := hboth.2
      refine hlearned.core.tracker.assignedValue_none_iff.mp hlearned.unassigned e
        (s'.decisionTracker.done_subset e he) ?_
      rw [hneg, hlast]
      rfl
  · obtain ⟨e, he, hel⟩ := hcur
    exact Rewound.fresh hlearned.rewound he fun hin => (hcut e hin).2 hel
  · intro i x hx e he hne
    by_cases hi : i = learntId
    · -- the literal of a learnt assertion is not assigned yet
      obtain rfl : x = l := by
        have := hx.1
        rw [hi, hlits] at this
        have hlast := hasserts.last
        rw [hlits, this] at hlast
        exact Option.some.inj hlast
      refine absurd ?_ (hlearned.core.tracker.assignedValue_none_iff.mp hlearned.unassigned e he)
      rw [hne]
      rfl
    · have hxold : s.IsAssertion i x := by
        have hlt : i < s.clauses.length := by
          have hlt' : i < s'.clauses.length := lt_of_mem_literals (l := x) (by simp [hx.1])
          have hclauses : s'.clauses.length = s.clauses.length + 1 := by
            rw [heq, ← hsame.clauses]
            exact List.length_append
          rw [hclauses] at hlt'
          exact Nat.lt_of_le_of_ne (Nat.lt_succ_iff.mp hlt') fun h => hi (h.trans hlength.symm)
        refine ⟨?_, hx.2.imp (fun hm => hneg ▸ hm) fun hm => ?_⟩
        · rw [← harena.literals_extends hlearned.extends_ hlt]
          exact hx.1
        · rw [hids] at hm
          exact (List.mem_append.mp hm).resolve_right fun hm => hi (List.mem_singleton.mp hm)
      exact absurd (hassert i x hxold e (hcut e he).1 hne) (hcut e he).2

end SolverState

end Resolvo
