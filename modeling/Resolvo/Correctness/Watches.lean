import Resolvo.Correctness.Asserting

/-!
# `Correctness.Watches` — propagation visits every clause that needs it

The watches of a lazily added clause may sit on literals that are false and propagated already, so the
usual two-watched-literal invariant does not hold. What holds is weaker: no clause has both of its watches
false *by propagated entries*, unless the encoder reported it. Watch lists are exact, so the clauses that
could break this when an entry is propagated are the ones its list names; and entries that are not
propagated belong to the current level, so whatever a backjump keeps was propagated before.
-/

set_option linter.unusedSectionVars false

namespace Resolvo

open Sat

variable {N S F : Type} [DecidableEq N] [DecidableEq S]

/-- The entries that count as propagated. -/
def DecisionTracker.done (t : DecisionTracker) : Trail VariableId ClauseId :=
  t.trail.take t.propagateIndex

theorem DecisionTracker.done_subset (t : DecisionTracker) : ∀ e ∈ t.done, e ∈ t.trail :=
  fun _ he => List.mem_of_mem_take he

/-- An entry is propagated or waits. -/
theorem DecisionTracker.mem_done_or (t : DecisionTracker) {e : Entry VariableId ClauseId}
    (he : e ∈ t.trail) : e ∈ t.done ∨ e ∈ t.trail.drop t.propagateIndex := by
  rw [← List.take_append_drop t.propagateIndex t.trail] at he
  exact List.mem_append.mp he

theorem DecisionTracker.done_push {t : DecisionTracker} (h : t.WF) {d : Decision}
    (hd : t.assignedValue d.var = none) (level : Nat) : (t.push d level).done = t.done := by
  unfold DecisionTracker.done
  rw [DecisionTracker.push_trail h hd, DecisionTracker.push_propagateIndex]
  exact List.take_append_of_le_length (by simpa using h.propagate_le)

/-- Taking the next entry counts it as propagated. -/
theorem DecisionTracker.done_next {t t' : DecisionTracker} {d : Decision}
    (hn : t.nextUnpropagated = some (d, t')) :
    t'.trail = t.trail ∧ t'.done = t.done ++ [SolverState.entryOf d (t.level d.var)] ∧
      SolverState.entryOf d (t.level d.var) ∈ t.trail ∧
      t.trail.drop t.propagateIndex = SolverState.entryOf d (t.level d.var) :: t'.trail.drop t'.propagateIndex := by
  obtain ⟨hd, rfl⟩ := DecisionTracker.nextUnpropagated_spec hn
  have hentry : t.trail[t.propagateIndex]? = some (SolverState.entryOf d (t.level d.var)) := by
    unfold DecisionTracker.trail
    rw [List.getElem?_map, hd]
    rfl
  obtain ⟨hlt, hget⟩ := List.getElem?_eq_some_iff.mp hentry
  refine ⟨rfl, ?_, List.mem_of_getElem? hentry, ?_⟩
  · show t.trail.take (t.propagateIndex + 1) = t.trail.take t.propagateIndex ++ _
    rw [List.take_add_one, hentry]
    rfl
  · rw [List.drop_eq_getElem_cons hlt, hget]
    rfl

namespace SolverState

/-! ## The invariant -/

/-- A clause with a single literal that propagation assigns at its start. -/
def IsAssertion (s : SolverState N S F) (id : ClauseId) (l : Literal) : Prop :=
  s.literals id = [l] ∧ ((l.var, id) ∈ s.negativeAssertions ∨ id ∈ s.learntClauseIds)

/-- The list of a literal holds exactly the clauses that watch it, each once, and every clause without
    watches is an assertion. -/
structure WatchLists (s : SolverState N S F) : Prop where
  mem_iff : ∀ l id, id ∈ s.watches.getD l [] ↔
    ∃ w, s.watchedLiterals[id]? = some (some w) ∧ (w.1 = l ∨ w.2 = l)
  nodup : ∀ l, (s.watches.getD l []).Nodup
  distinct : ∀ (id : ClauseId) kind w, s.clauses[id]? = some kind → kind.isBinary = false →
    s.watchedLiterals[id]? = some (some w) → w.1 ≠ w.2
  unwatched : ∀ id : ClauseId, s.watchedLiterals[id]? = some none →
    id = ClauseId.installRoot ∨ ∃ l, s.IsAssertion id l

/-- **The invariant of propagation** at a level: no clause has both watches false on a part of the trail.
    Clauses that are exempt are about to be visited, or were reported by the encoder. -/
structure Watchful (level : Nat) (part : Trail VariableId ClauseId) (exempt : ClauseId → Prop)
    (s : SolverState N S F) : Prop extends CoreAt level s where
  lists : WatchLists s
  sub : ∀ e ∈ part, e ∈ s.decisionTracker.trail
  visited : ∀ (id : ClauseId) w, ¬ exempt id → s.watchedLiterals[id]? = some (some w) →
    ¬ (part.Falsifies w.1 ∧ part.Falsifies w.2)

variable {level : Nat} {part : Trail VariableId ClauseId} {exempt exempt' : ClauseId → Prop}
  {s s' : SolverState N S F}

theorem Watchful.mono (h : Watchful level part exempt s) (he : ∀ id, exempt id → exempt' id) :
    Watchful level part exempt' s :=
  { h with visited := fun id w hn => h.visited id w fun hx => hn (he id hx) }

theorem Watchful.eval_false (h : Watchful level part exempt s) {l : Literal} (hl : part.Falsifies l) :
    s.decisionTracker.eval l = some false :=
  h.tracker.eval_false_iff.mpr (hl.mono h.sub)

/-! ## Appending entries and moving watches -/

theorem Watchful.push (h : Watchful level part exempt s) {d : Decision}
    (hd : s.decisionTracker.assignedValue d.var = none)
    (hc : (s.withTracker (s.decisionTracker.push d level)).CoreAt level) :
    Watchful level part exempt (s.withTracker (s.decisionTracker.push d level)) where
  toCoreAt := hc
  lists := ⟨h.lists.mem_iff, h.lists.nodup, h.lists.distinct, h.lists.unwatched⟩
  sub := by
    intro e he
    show e ∈ (s.decisionTracker.push d level).trail
    rw [DecisionTracker.push_trail h.tracker hd]
    exact List.mem_append_left _ (h.sub e he)
  visited := h.visited

theorem assign_cases {d : Decision} {conflict : PropagationConflict}
    (h : s.assign d level conflict = .ok s') :
    (s.decisionTracker.assignedValue d.var = none ∧
        s' = s.withTracker (s.decisionTracker.push d level)) ∨
      (s.decisionTracker.assignedValue d.var = some d.value ∧ s' = s) := by
  unfold SolverState.assign at h
  split at h
  · next b t ht =>
      obtain rfl : _ = s' := Except.ok.inj h
      rcases DecisionTracker.tryAddDecision_cases ht with ⟨-, hv, rfl⟩ | ⟨-, hv, rfl⟩
      · exact .inl ⟨hv, rfl⟩
      · exact .inr ⟨hv, rfl⟩
  · cases h

theorem assign_error {d : Decision} {conflict : PropagationConflict}
    {e : PropagationConflict × SolverState N S F} (h : s.assign d level conflict = .error e) :
    e = (conflict, s) := by
  unfold SolverState.assign at h
  split at h
  · cases h
  · exact (Except.error.inj h).symm

/-- A literal that was assigned is true. -/
theorem assign_true {l : Literal} {id : ClauseId} {conflict : PropagationConflict}
    (h : s.assign ⟨l.var, l.satisfyingValue, id⟩ level conflict = .ok s') :
    s'.decisionTracker.eval l = some true := by
  have hval : s'.decisionTracker.assignedValue l.var = some l.satisfyingValue := by
    rcases assign_cases h with ⟨-, rfl⟩ | ⟨hv, rfl⟩
    · show (s.decisionTracker.push _ level).assignedValue l.var = _
      rw [DecisionTracker.push_assignedValue, if_pos rfl]
    · exact hv
  unfold DecisionTracker.eval Lit.eval
  rw [show s'.decisionTracker.map.value l.var = some l.satisfyingValue from hval]
  simp [Lit.satisfyingValue]

theorem Watchful.assign {d : Decision} {conflict : PropagationConflict}
    (h : Watchful level part exempt s) (hc : s'.CoreAt level)
    (ha : s.assign d level conflict = .ok s') : Watchful level part exempt s' := by
  rcases assign_cases ha with ⟨hv, rfl⟩ | ⟨-, rfl⟩
  · exact h.push hv hc
  · exact h

theorem assign_watchedLiterals {d : Decision} {conflict : PropagationConflict}
    (ha : s.assign d level conflict = .ok s') : s'.watchedLiterals = s.watchedLiterals := by
  rcases assign_cases ha with ⟨-, rfl⟩ | ⟨-, rfl⟩ <;> rfl

/-- Moving a watch of a clause that is not binary. -/
theorem WatchLists.updateWatch (h : WatchLists s) {id : ClauseId} {kind : Clause N} {w : Watches}
    {old new other : Literal} (hk : s.clauses[id]? = some kind) (hb : kind.isBinary = false)
    (hw : s.watchedLiterals[id]? = some (some w)) (hne : new ≠ other) (i : Nat)
    (hi : (i = 0 ∧ w.1 = old ∧ w.2 = other) ∨ (i ≠ 0 ∧ w.1 = other ∧ w.2 = old))
    (hno : new ≠ old) : WatchLists (s.updateWatch id w i old new) := by
  have hwne : w.1 ≠ w.2 := h.distinct id kind w hk hb hw
  -- the watches of the moved clause
  have hself : ∃ w', (s.updateWatch id w i old new).watchedLiterals[id]? = some (some w') ∧
      w'.1 ≠ w'.2 ∧ ∀ l, (w'.1 = l ∨ w'.2 = l) ↔ (l = new ∨ l = other) := by
    rw [updateWatch_getElem?_self _ _ _ hw]
    rcases hi with ⟨hi, -, ho⟩ | ⟨hi, ho, -⟩
    · refine ⟨_, rfl, ?_, fun l => ?_⟩
      · rw [if_pos hi, ho]
        exact hne
      · rw [if_pos hi, ho]
        exact or_congr eq_comm eq_comm
    · refine ⟨_, rfl, ?_, fun l => ?_⟩
      · rw [if_neg hi, ho]
        exact hne.symm
      · rw [if_neg hi, ho]
        exact or_comm.trans (or_congr eq_comm eq_comm)
  have hother : ∀ id', id' ≠ id → (s.updateWatch id w i old new).watchedLiterals[id']? =
      s.watchedLiterals[id']? := fun id' hn => updateWatch_getElem?_ne s w i old new hn
  have hold : ∀ l, id ∈ s.watches.getD l [] ↔ l = old ∨ l = other := by
    intro l
    rw [h.mem_iff]
    constructor
    · rintro ⟨w', hw', hl⟩
      obtain rfl := Option.some.inj (Option.some.inj (hw.symm.trans hw'))
      rcases hi with ⟨-, ho, hot⟩ | ⟨-, hot, ho⟩ <;> rcases hl with hl | hl
      · exact .inl (hl.symm.trans ho)
      · exact .inr (hl.symm.trans hot)
      · exact .inr (hl.symm.trans hot)
      · exact .inl (hl.symm.trans ho)
    · intro hl
      refine ⟨w, hw, ?_⟩
      rcases hi with ⟨-, ho, hot⟩ | ⟨-, hot, ho⟩ <;> rcases hl with rfl | rfl
      · exact .inl ho
      · exact .inr hot
      · exact .inr ho
      · exact .inl hot
  have holdother : old ≠ other := by
    rintro rfl
    rcases hi with ⟨-, ho, hot⟩ | ⟨-, hot, ho⟩
    · exact hwne (ho.trans hot.symm)
    · exact hwne (hot.trans ho.symm)
  -- the list of each literal
  have hlist : ∀ l, (s.updateWatch id w i old new).watches.getD l [] =
      if new = l then id :: s.watches.getD l []
      else if old = l then (s.watches.getD l []).erase id else s.watches.getD l [] := by
    intro l
    show ((s.watches.insert old ((s.watches.getD old []).erase id)).insert new (id ::
      (s.watches.insert old ((s.watches.getD old []).erase id)).getD new [])).getD l [] = _
    rw [IndexMap.getD_insert]
    by_cases hnl : new = l
    · subst hnl
      rw [if_pos rfl, if_pos rfl, IndexMap.getD_insert, if_neg fun h => hno h.symm]
    · rw [if_neg hnl, if_neg hnl, IndexMap.getD_insert]
      by_cases hol : old = l
      · subst hol
        rw [if_pos rfl]
      · rw [if_neg hol, if_neg hol]
  constructor
  case mem_iff =>
    intro l id'
    rw [hlist]
    by_cases hid : id' = id
    · subst hid
      obtain ⟨w', hw', -, hiff⟩ := hself
      have hright : (∃ w'', (s.updateWatch id' w i old new).watchedLiterals[id']? = some (some w'') ∧
          (w''.1 = l ∨ w''.2 = l)) ↔ l = new ∨ l = other := by
        rw [hw']
        constructor
        · rintro ⟨w'', hw'', hl⟩
          obtain rfl := Option.some.inj (Option.some.inj hw'')
          exact (hiff l).mp hl
        · exact fun hl => ⟨w', rfl, (hiff l).mpr hl⟩
      rw [hright]
      by_cases hnl : new = l
      · rw [if_pos hnl]
        exact ⟨fun _ => .inl hnl.symm, fun _ => List.mem_cons_self⟩
      · rw [if_neg hnl]
        by_cases hol : old = l
        · rw [if_pos hol]
          refine ⟨fun hm => absurd hm (h.nodup l).not_mem_erase, fun hl => ?_⟩
          rcases hl with rfl | rfl
          · exact absurd rfl hnl
          · exact absurd hol holdother
        · rw [if_neg hol, hold]
          refine ⟨fun hl => .inr (hl.resolve_left fun h => hol h.symm), fun hl => .inr ?_⟩
          exact hl.resolve_left fun h => hnl h.symm
    · rw [hother id' hid, ← h.mem_iff]
      by_cases hnl : new = l
      · rw [if_pos hnl, List.mem_cons]
        exact ⟨fun hm => hm.resolve_left hid, .inr⟩
      · rw [if_neg hnl]
        by_cases hol : old = l
        · rw [if_pos hol]
          exact List.mem_erase_of_ne hid
        · rw [if_neg hol]
  case nodup =>
    intro l
    rw [hlist]
    by_cases hnl : new = l
    · rw [if_pos hnl]
      refine List.nodup_cons.mpr ⟨fun hm => ?_, h.nodup l⟩
      subst hnl
      rcases (hold new).mp hm with hl | hl
      · exact hno hl
      · exact hne hl
    · rw [if_neg hnl]
      by_cases hol : old = l
      · rw [if_pos hol]
        exact (h.nodup l).erase id
      · rw [if_neg hol]
        exact h.nodup l
  case distinct =>
    intro id' kind' w' hk' hb' hw'
    by_cases hid : id' = id
    · subst hid
      obtain ⟨w'', hw'', hdis, -⟩ := hself
      obtain rfl := Option.some.inj (Option.some.inj (hw''.symm.trans hw'))
      exact hdis
    · rw [hother id' hid] at hw'
      exact h.distinct id' kind' w' hk' hb' hw'
  case unwatched =>
    intro id' hw'
    by_cases hid : id' = id
    · subst hid
      obtain ⟨w'', hw'', -⟩ := hself
      rw [hw''] at hw'
      cases hw'
    · rw [hother id' hid] at hw'
      exact h.unwatched id' hw'

/-! ## Visiting a clause -/

/-- Visiting a clause that watches a literal that became false leaves it with a watch that is not false on
    the part. -/
theorem Watchful.visitClause {literal : Literal} {id : ClauseId}
    (h : Watchful level part (fun i => i = id ∨ exempt i) s)
    (hfalse : s.decisionTracker.eval literal = some false) (hid : id ∈ s.watches.getD literal [])
    (hv : visitClause level literal s id = .ok s') :
    Watchful level part exempt s' ∧
      ∀ id' ≠ id, s'.watchedLiterals[id']? = s.watchedLiterals[id']? := by
  have hprop : Propagates level s s' :=
    (visitClause_spec h.toCoreAt hfalse (h.arena.watches _ id hid)).1 s' hv
  have hcore := Propagates.core h.toCoreAt hprop
  obtain ⟨w, hw, hlit⟩ := (h.lists.mem_iff literal id).mp hid
  obtain ⟨kind, hk⟩ : ∃ kind, s.clauses[id]? = some kind := by
    have hlt : id < s.clauses.length := by
      rw [← h.arena.watched_length]
      exact (List.getElem?_eq_some_iff.mp hw).1
    exact ⟨_, List.getElem?_eq_getElem hlt⟩
  unfold SolverState.visitClause at hv
  simp only [hk, hw, Option.join_some] at hv
  generalize hother : (if w.1 = literal then w.2 else w.1) = other at hv
  have hwatches : (w.1 = literal ∧ w.2 = other) ∨ (w.1 ≠ literal ∧ w.1 = other ∧ w.2 = literal) := by
    by_cases h1 : w.1 = literal
    · exact .inl ⟨h1, by rw [if_pos h1] at hother; exact hother⟩
    · exact .inr ⟨h1, by rw [if_neg h1] at hother; exact hother, hlit.resolve_left h1⟩
  have hof : part.Falsifies w.1 ∧ part.Falsifies w.2 → part.Falsifies other := by
    rintro ⟨h₁, h₂⟩
    rcases hwatches with ⟨-, ho⟩ | ⟨-, ho, -⟩
    · exact ho ▸ h₂
    · exact ho ▸ h₁
  split at hv
  · -- the other watch is true
    next htrue =>
      obtain rfl : s = s' := Except.ok.inj hv
      refine ⟨{ h with visited := fun id' w' hn hw' hboth => ?_ }, fun _ _ => rfl⟩
      by_cases heq : id' = id
      · subst heq
        obtain rfl := Option.some.inj (Option.some.inj (hw.symm.trans hw'))
        have hf := h.eval_false (hof hboth)
        rw [htrue] at hf
        cases hf
      · exact h.visited id' w' (fun hx => hx.elim heq hn) hw' hboth
  · split at hv
    · -- the watch moves to a literal that is not false
      next new hnew =>
        obtain rfl : _ = s' := Except.ok.inj hv
        have hb : kind.isBinary = false := by
          cases hb : kind.isBinary with
          | false => rfl
          | true => simp [hb] at hnew
        rw [hb] at hnew
        have hfind : (s.literals id).find? (fun l => l ≠ other &&
            (s.decisionTracker.eval l).getD true) = some new := hnew
        have hpick := List.find?_some hfind
        simp only [ne_eq, decide_not, Bool.and_eq_true, Bool.not_eq_true', decide_eq_false_iff_not]
          at hpick
        obtain ⟨hne, hopen⟩ := hpick
        have hnf : s.decisionTracker.eval new ≠ some false := by
          intro hf
          rw [hf] at hopen
          cases hopen
        have hno : new ≠ literal := by
          rintro rfl
          exact hnf hfalse
        have hposition : ((if w.1 = literal then 0 else 1) = 0 ∧ w.1 = literal ∧ w.2 = other) ∨
            ((if w.1 = literal then 0 else 1) ≠ 0 ∧ w.1 = other ∧ w.2 = literal) := by
          rcases hwatches with ⟨h1, h2⟩ | ⟨hn, h1, h2⟩
          · exact .inl ⟨if_pos h1, h1, h2⟩
          · exact .inr ⟨by rw [if_neg hn]; exact Nat.one_ne_zero, h1, h2⟩
        have hlists := h.lists.updateWatch hk hb hw hne _ hposition hno
        have hsame : ∀ id' ≠ id, (s.updateWatch id w (if w.1 = literal then 0 else 1) literal
            new).watchedLiterals[id']? = s.watchedLiterals[id']? :=
          fun id' hn => updateWatch_getElem?_ne s w _ literal new hn
        refine ⟨⟨hcore, hlists, h.sub, fun id' w' hn hw' hboth => ?_⟩, hsame⟩
        by_cases heq : id' = id
        · subst heq
          rw [updateWatch_getElem?_self _ _ _ hw] at hw'
          obtain rfl := Option.some.inj (Option.some.inj hw')
          split at hboth
          · exact hnf (h.eval_false hboth.1)
          · exact hnf (h.eval_false hboth.2)
        · rw [hsame id' heq] at hw'
          exact h.visited id' w' (fun hx => hx.elim heq hn) hw' hboth
    · -- the other watch is assigned true
      have htrue := assign_true hv
      have hwl := assign_watchedLiterals hv
      have h' := h.assign hcore hv
      refine ⟨{ h' with visited := fun id' w' hn hw' hboth => ?_ }, fun _ _ => by rw [hwl]⟩
      by_cases heq : id' = id
      · subst heq
        rw [hwl] at hw'
        obtain rfl := Option.some.inj (Option.some.inj (hw.symm.trans hw'))
        have hf := h'.eval_false (hof hboth)
        rw [htrue] at hf
        cases hf
      · exact h'.visited id' w' (fun hx => hx.elim heq hn) hw' hboth

/-- The clause a visit fails on is the visited one. -/
theorem visitClause_error {literal : Literal} {id : ClauseId}
    {e : PropagationConflict × SolverState N S F}
    (hv : SolverState.visitClause level literal s id = .error e) : e.1.clause = id ∧ e.2 = s := by
  unfold SolverState.visitClause at hv
  split at hv
  · next kind w hk hw =>
      dsimp only at hv
      generalize (if w.1 = literal then w.2 else w.1) = other at hv
      split at hv
      · cases hv
      · split at hv
        · cases hv
        · obtain rfl := assign_error hv
          exact ⟨rfl, rfl⟩
  · cases hv

/-- A clause in the list of a literal contains it. -/
theorem Watchful.mem_of_watches (h : Watchful level part exempt s) {l : Literal} {id : ClauseId}
    (hid : id ∈ s.watches.getD l []) : l ∈ s.literals id := by
  obtain ⟨w, hw, hl⟩ := (h.lists.mem_iff l id).mp hid
  have hlt : id < s.clauses.length := by
    rw [← h.arena.watched_length]
    exact (List.getElem?_eq_some_iff.mp hw).1
  have hk : s.clauses[id]? = some s.clauses[id] := List.getElem?_eq_getElem hlt
  have hok := h.arena.watched id _ w hk hw
  rw [← literals_of_kind hk] at hok
  rcases hl with rfl | rfl
  · exact hok.fst
  · exact hok.snd

/-- Visiting clauses one after the other. Those that are left are exempt and still watch the literal; a
    part on which no clause has both watches false stays one up to a conflict. -/
theorem Watchful.visitClauses {literal : Literal} {before : Trail VariableId ClauseId}
    (ids : List ClauseId) (h : Watchful level part (fun i => i ∈ ids ∨ exempt i) s)
    (hbefore : Watchful level before exempt' s) (hfalse : s.decisionTracker.eval literal = some false)
    (hnd : ids.Nodup) (hids : ∀ id ∈ ids, id ∈ s.watches.getD literal []) :
    (∀ s', ids.foldlM (SolverState.visitClause level literal) s = .ok s' →
      Watchful level part exempt s' ∧ Propagates level s s') ∧
    ∀ c s', ids.foldlM (SolverState.visitClause level literal) s = .error (c, s') →
      Watchful level before exempt' s' ∧ Propagates level s s' ∧ literal ∈ s'.literals c.clause := by
  induction ids generalizing s with
  | nil =>
      refine ⟨fun s' hp => ?_, fun c s' hp => by cases hp⟩
      obtain rfl : s = s' := Except.ok.inj hp
      exact ⟨h.mono fun id hid => hid.resolve_left (List.not_mem_nil), .refl⟩
  | cons id rest ih =>
      simp only [List.foldlM_cons, bind, Except.bind]
      obtain ⟨hnotin, hnd⟩ := List.nodup_cons.mp hnd
      have hmem := hids id List.mem_cons_self
      have hspec := visitClause_spec h.toCoreAt hfalse (h.arena.watches _ id hmem)
      cases hv : SolverState.visitClause level literal s id with
      | error e =>
          refine ⟨(fun s' hp => by cases hp), fun c s' hp => ?_⟩
          obtain rfl : e = (c, s') := Except.error.inj hp
          obtain ⟨hclause, rfl⟩ := visitClause_error hv
          dsimp only at hclause
          subst hclause
          exact ⟨hbefore, .refl, h.mem_of_watches hmem⟩
      | ok s₁ =>
          have hexempt : Watchful level part (fun i => i = id ∨ i ∈ rest ∨ exempt i) s := by
            refine h.mono fun i hi => ?_
            rcases hi with hi | hi
            · exact (List.mem_cons.mp hi).imp_right .inl
            · exact .inr (.inr hi)
          obtain ⟨h₁, hsame⟩ := hexempt.visitClause hfalse hmem hv
          have hbefore₁ := ((hbefore.mono fun i hi => .inr hi).visitClause hfalse hmem hv).1
          have hprop := hspec.1 s₁ hv
          obtain ⟨hok, herr⟩ := ih h₁ hbefore₁ (Propagates.eval_mono hprop hfalse) hnd fun i hi => by
            obtain ⟨w, hw, hl⟩ := (h.lists.mem_iff literal i).mp (hids i (List.mem_cons_of_mem _ hi))
            refine (h₁.lists.mem_iff literal i).mpr ⟨w, ?_, hl⟩
            rw [hsame i fun heq => hnotin (heq ▸ hi)]
            exact hw
          refine ⟨fun s' hp => ?_, fun c s' hp => ?_⟩
          · obtain ⟨h₂, hp₂⟩ := hok s' hp
            exact ⟨h₂, hprop.trans hp₂⟩
          · obtain ⟨h₂, hp₂, hl⟩ := herr c s' hp
            exact ⟨h₂, hprop.trans hp₂, hl⟩

/-! ## Propagating an entry -/

/-- Entries that wait for propagation are of the current level. -/
def Fresh (level : Nat) (t : DecisionTracker) : Prop :=
  ∀ e ∈ t.trail.drop t.propagateIndex, e.level = level

theorem Fresh.push {t : DecisionTracker} (h : Fresh level t) (ht : t.WF) {d : Decision}
    (hd : t.assignedValue d.var = none) : Fresh level (t.push d level) := by
  unfold Fresh
  rw [DecisionTracker.push_trail ht hd, DecisionTracker.push_propagateIndex,
    List.drop_append_of_le_length (by simpa using ht.propagate_le)]
  intro e he
  rcases List.mem_append.mp he with he | he
  · exact h e he
  · rw [List.mem_singleton.mp he]

/-- What propagation does to the trail: it appends entries of its level. -/
theorem Propagates.trail (hc : s.CoreAt level) (h : Propagates level s s') :
    s.decisionTracker.trail <+: s'.decisionTracker.trail ∧
    s'.decisionTracker.propagateIndex = s.decisionTracker.propagateIndex ∧
    (Fresh level s.decisionTracker → Fresh level s'.decisionTracker) := by
  induction h with
  | refl => exact ⟨List.prefix_refl _, rfl, id⟩
  | tail hpre hstep ih =>
      obtain ⟨htrail, hindex, hfresh⟩ := ih
      have hc' := Propagates.core hc hpre
      cases hstep with
      | push d hd hmem hothers =>
          refine ⟨htrail.trans ?_, hindex, fun hf => (hfresh hf).push hc'.tracker hd⟩
          show _ <+: (DecisionTracker.push _ d level).trail
          rw [DecisionTracker.push_trail hc'.tracker hd]
          exact List.prefix_append _ _
      | move => exact ⟨htrail, hindex, hfresh⟩

theorem Propagates.done (hc : s.CoreAt level) (h : Propagates level s s') :
    s'.decisionTracker.done = s.decisionTracker.done := by
  obtain ⟨⟨rest, hrest⟩, hindex, -⟩ := Propagates.trail hc h
  unfold DecisionTracker.done
  rw [hindex, ← hrest]
  exact List.take_append_of_le_length (by simpa using hc.tracker.propagate_le)

/-- The search at a level: no clause escapes propagation, and what waits is of this level. -/
structure Vigilant (level : Nat) (exempt : ClauseId → Prop) (s : SolverState N S F) : Prop
    extends Watchful level s.decisionTracker.done exempt s where
  fresh : Fresh level s.decisionTracker

/-- **Propagating the next entry** visits every clause that could escape; a conflict is a clause with a
    literal that became false at the current level. -/
theorem Vigilant.propagate (h : Vigilant level (fun _ => False) s) {d : Decision} {t : DecisionTracker}
    (hn : s.decisionTracker.nextUnpropagated = some (d, t)) :
    (∀ s', (s.withTracker t).propagateDecision level d = .ok s' →
      Vigilant level (fun _ => False) s') ∧
    ∀ c s', (s.withTracker t).propagateDecision level d = .error (c, s') →
      Watchful level s.decisionTracker.done (fun _ => False) s' ∧
      (∀ e ∈ s'.decisionTracker.trail, e ∈ s.decisionTracker.done ∨ e.level = level) ∧
      ∃ e ∈ s'.decisionTracker.trail, e.level = level ∧ e.lit.neg ∈ s'.literals c.clause := by
  obtain ⟨htrail, hdone, hentry, hrest⟩ := DecisionTracker.done_next hn
  have hcore₁ : (s.withTracker t).Core := by
    obtain ⟨hd, rfl⟩ := DecisionTracker.nextUnpropagated_spec hn
    obtain ⟨hlt, -⟩ := List.getElem?_eq_some_iff.mp hd
    exact h.toCore.with_index (Nat.succ_le_of_lt hlt) h.tracker.floor_le
  generalize hs₁ : s.withTracker t = s₁ at hcore₁
  have htracker : s₁.decisionTracker = t := by rw [← hs₁]; rfl
  rw [← htracker] at htrail hdone hrest
  have hcoreAt : s₁.CoreAt level := by
    refine ⟨hcore₁, h.pos, ?_⟩
    rw [htrail]
    exact h.bounded
  have hlists : WatchLists s₁ := by
    rw [← hs₁]
    exact ⟨h.lists.mem_iff, h.lists.nodup, h.lists.distinct, h.lists.unwatched⟩
  have hwl : s₁.watchedLiterals = s.watchedLiterals := by rw [← hs₁]; rfl
  have hbefore : Watchful level s.decisionTracker.done (fun _ => False) s₁ := by
    refine ⟨hcoreAt, hlists, fun e he => ?_, ?_⟩
    · rw [htrail]
      exact h.sub e he
    · rw [hwl]
      exact h.visited
  have hfresh : Fresh level s₁.decisionTracker := by
    intro e he
    refine h.fresh e ?_
    rw [hrest]
    exact List.mem_cons_of_mem _ he
  have hlit : (entryOf d (s.decisionTracker.level d.var)).lit.neg = ⟨d.var, d.value⟩ := by
    simp [entryOf, Decision.lit, Lit.neg]
  -- a clause that is not in the list of the literal is not affected by the entry
  have hafter : Watchful level s₁.decisionTracker.done
      (fun i => i ∈ s₁.watches.getD ⟨d.var, d.value⟩ [] ∨ False) s₁ := by
    refine ⟨hcoreAt, hlists, s₁.decisionTracker.done_subset, fun id w hnot hw hboth => ?_⟩
    have hold : ∀ l, (w.1 = l ∨ w.2 = l) → s₁.decisionTracker.done.Falsifies l →
        s.decisionTracker.done.Falsifies l := by
      intro l hl hf
      rw [hdone, Trail.falsifies_append] at hf
      refine hf.resolve_right ?_
      rintro ⟨e, he, hneg⟩
      rw [List.mem_singleton.mp he] at hneg
      refine hnot (.inl ((hlists.mem_iff _ id).mpr ⟨w, hw, ?_⟩))
      rw [← hlit, hneg, Lit.neg_neg]
      exact hl
    exact hbefore.visited id w (fun hx => hx) hw
      ⟨hold w.1 (.inl rfl) hboth.1, hold w.2 (.inr rfl) hboth.2⟩
  have hfalse : s₁.decisionTracker.eval ⟨d.var, d.value⟩ = some false := by
    refine hcoreAt.tracker.eval_false_iff.mpr ⟨entryOf d (s.decisionTracker.level d.var), ?_, ?_⟩
    · rw [htrail]
      exact hentry
    · rw [← hlit, Lit.neg_neg]
  obtain ⟨hok, herr⟩ := hafter.visitClauses _ hbefore hfalse (hlists.nodup _) fun id hid => hid
  refine ⟨fun s' hp => ?_, fun c s' hp => ?_⟩
  · obtain ⟨hw, hprop⟩ := hok s' hp
    have hd' := Propagates.done hcoreAt hprop
    rw [← hd'] at hw
    exact ⟨hw, (Propagates.trail hcoreAt hprop).2.2 hfresh⟩
  · obtain ⟨hw, hprop, hl⟩ := herr c s' hp
    obtain ⟨hpre, -, hf⟩ := Propagates.trail hcoreAt hprop
    have hlevel : (entryOf d (s.decisionTracker.level d.var)).level = level := by
      refine h.fresh _ ?_
      rw [hrest]
      exact List.mem_cons_self
    refine ⟨hw, fun e he => ?_, entryOf d (s.decisionTracker.level d.var), hpre.subset ?_, hlevel, ?_⟩
    · -- what was not propagated before is the propagated entry or waits
      rcases s'.decisionTracker.mem_done_or he with he | he
      · rw [Propagates.done hcoreAt hprop, hdone] at he
        refine (List.mem_append.mp he).imp_right fun he => ?_
        rw [List.mem_singleton.mp he]
        exact hlevel
      · exact .inr (hf hfresh e he)
    · rw [htrail]
      exact hentry
    · rw [hlit]
      exact hl

end SolverState

end Resolvo
