import Resolvo.Correctness.EncoderVigilance

/-!
# `Correctness.Hinges` — what two implications with a common auxiliary variable keep apart

The shared encodings say that two variables exclude each other through an auxiliary variable `h`, by
`a → h` and `b → ¬h`. A backjump can leave `a` true and `h` unassigned, so propagation alone does not keep
`a` and `b` apart. It does so as long as `h` is assigned, at the level of `a` or of `b`, whenever both were
propagated: whichever of them is propagated last assigns `h`, and only a backjump that undoes one of them
undoes `h`. The encoder has to keep this where it adds such a clause for a variable that is true already.
-/

set_option linter.unusedSectionVars false

namespace Resolvo

open Sat Relation SolverState

variable {N S F : Type} [DecidableEq N] [DecidableEq S]

/-! ## Implications -/

/-- The implication to or from an auxiliary variable that a clause of a shared encoding is. -/
def Clause.implication : Clause N → Option (VariableId × Literal)
  | .constrainsExcluded candidate aux _ => some (candidate, positive aux)
  | .constrainsParent parent aux _ => some (parent, negative aux)
  | .forbidMultipleInstances candidate other _ => some (candidate, other)
  | _ => none

/-- A clause of the encoding of a constraint that several solvables share. -/
def Clause.IsShared : Clause N → Prop
  | .constrainsExcluded .. | .constrainsParent .. => True
  | _ => False

/-- The implication that a clause of any shared encoding is, also those to a gate. -/
def Clause.arrow : Clause N → Option (VariableId × Literal)
  | .anyOf selected other => some (other, positive selected)
  | kind => kind.implication

theorem Clause.arrow_of_implication {kind : Clause N} {a : VariableId} {l : Literal}
    (h : kind.implication = some (a, l)) : kind.arrow = some (a, l) := by
  cases kind <;> first | exact h | cases h

theorem Clause.arrow_isBinary {kind : Clause N} {a : VariableId} {l : Literal}
    (h : kind.arrow = some (a, l)) : kind.isBinary = true := by
  cases kind <;> first | rfl | cases h

theorem Clause.implication_isBinary {kind : Clause N} {a : VariableId} {l : Literal}
    (h : kind.implication = some (a, l)) : kind.isBinary = true :=
  arrow_isBinary (arrow_of_implication h)

namespace SolverState

variable {shared : Prop} {level : Nat} {exempt : ClauseId → Prop} {part part' : Trail VariableId ClauseId}
  {s s' : SolverState N S F} {a : VariableId} {l : Literal}

theorem kindLiterals_implication {kind : Clause N} (h : kind.implication = some (a, l)) :
    s.kindLiterals kind = [negative a, l] := by
  cases kind <;> cases h <;> rfl

theorem kindLiterals_arrow {kind : Clause N} (h : kind.arrow = some (a, l)) :
    s.kindLiterals kind = [negative a, l] ∨ s.kindLiterals kind = [l, negative a] := by
  cases kind with
  | anyOf selected other =>
      cases h
      exact .inr rfl
  | _ => exact .inl (kindLiterals_implication h)

theorem mem_kindLiterals_arrow {kind : Clause N} (h : kind.arrow = some (a, l)) {x : Literal} :
    x ∈ s.kindLiterals kind ↔ x = negative a ∨ x = l := by
  rcases kindLiterals_arrow (s := s) h with hlits | hlits
  · rw [hlits, List.mem_pair]
  · rw [hlits, List.mem_pair, or_comm]

/-- A clause of the database is the implication from `a` to `l`. The encodings of shared constraints count only
    if `shared`. -/
def Implies (shared : Prop) (s : SolverState N S F) (a : VariableId) (l : Literal) : Prop :=
  ∃ (id : ClauseId) (kind : Clause N), s.clauses[id]? = some kind ∧ kind.implication = some (a, l) ∧
    (kind.IsShared → shared)

theorem Implies.append (h : s'.Implies shared a l) {added : List (Clause N)} (hclauses : s'.clauses = s.clauses ++ added)
    (hadded : ∀ kind ∈ added, kind.implication = none) : s.Implies shared a l := by
  obtain ⟨id, kind, hk, himp, hshared⟩ := h
  rw [hclauses] at hk
  by_cases hid : id < s.clauses.length
  · rw [List.getElem?_append_left hid] at hk
    exact ⟨id, kind, hk, himp, hshared⟩
  · rw [List.getElem?_append_right (Nat.not_lt.mp hid)] at hk
    rw [hadded kind (List.mem_of_getElem? hk)] at himp
    cases himp

/-- **Hinged**: if both `a` and `b` are true on a part of the trail, then what they imply is assigned, at the
    level of one of them. -/
def Hinged (shared : Prop) (part : Trail VariableId ClauseId) (s : SolverState N S F) : Prop :=
  ∀ a b l, s.Implies shared a l → s.Implies shared b l.neg →
    ∀ ea ∈ part, ea.lit = positive a → ∀ eb ∈ part, eb.lit = positive b →
      ∃ e ∈ s.decisionTracker.trail, e.lit.var = l.var ∧ e.level ≤ max ea.level eb.level

/-- More entries, and no more implications. -/
theorem Hinged.grow (h : Hinged shared part s) (himplies : ∀ a l, s'.Implies shared a l → s.Implies shared a l)
    (htrail : ∀ e ∈ s.decisionTracker.trail, e ∈ s'.decisionTracker.trail) : Hinged shared part s' := by
  intro a b l ha hb ea hea hla eb heb hlb
  obtain ⟨e, he, hvar, hle⟩ := h a b l (himplies a l ha) (himplies b l.neg hb) ea hea hla eb heb hlb
  exact ⟨e, htrail e he, hvar, hle⟩

theorem Hinged.of_empty (hnil : part = []) : Hinged shared part s := by
  intro a b l _ _ ea hea
  rw [hnil] at hea
  cases hea

/-- **Cutting the trail back** to a level keeps what was assigned at the levels that are left. -/
theorem Hinged.cut (h : Hinged shared part s) (target : Nat)
    (himplies : ∀ a l, s'.Implies shared a l → s.Implies shared a l)
    (hpart : ∀ e ∈ part', e ∈ part ∧ e.level ≤ target)
    (htrail : ∀ e ∈ s.decisionTracker.trail, e.level ≤ target → e ∈ s'.decisionTracker.trail) :
    Hinged shared part' s' := by
  intro a b l ha hb ea hea hla eb heb hlb
  obtain ⟨hea, hela⟩ := hpart ea hea
  obtain ⟨heb, helb⟩ := hpart eb heb
  obtain ⟨e, he, hvar, hle⟩ := h a b l (himplies a l ha) (himplies b l.neg hb) ea hea hla eb heb hlb
  refine ⟨e, htrail e he ?_, hvar, hle⟩
  omega

theorem Propagates.implies (h : Propagates level s s') : s'.Implies shared a l ↔ s.Implies shared a l := by
  unfold Implies
  rw [Propagates.clauses h]

theorem Hinged.propagates (h : Hinged shared part s) (hc : s.CoreAt level) (hp : Propagates level s s') :
    Hinged shared part s' :=
  h.grow (fun _ _ => (Propagates.implies hp).mp) (Propagates.trail hc hp).1.subset

/-- An implication is watched, at two of its literals. -/
theorem watched_arrow (hl : WatchLists s) (ha : s.Arena) {id : ClauseId} {kind : Clause N}
    (hk : s.clauses[id]? = some kind) (himp : kind.arrow = some (a, l)) :
    ∃ w, s.watchedLiterals[id]? = some (some w) ∧ WatchOk kind (s.kindLiterals kind) w := by
  have hlt : id < s.watchedLiterals.length := by
    rw [ha.watched_length]
    exact (List.getElem?_eq_some_iff.mp hk).1
  have hw : s.watchedLiterals[id]? = some s.watchedLiterals[id] := List.getElem?_eq_getElem hlt
  cases hwatched : s.watchedLiterals[id] with
  | none =>
      -- neither the root's clause nor an assertion has two literals
      rw [hwatched] at hw
      rcases hl.unwatched id hw with rfl | ⟨x, hx, -⟩
      · cases Option.some.inj (hk.symm.trans ha.root)
        cases himp
      · -- an assertion has one literal, and an implication two that are different
        rw [literals_of_kind hk] at hx
        rcases kindLiterals_arrow (s := s) himp with hlits | hlits
        · rw [hlits] at hx
          cases hx
        · rw [hlits] at hx
          cases hx
  | some w =>
      rw [hwatched] at hw
      exact ⟨w, hw, ha.watched id kind w hk hw⟩

/-! ## Propagating an entry -/

/-- Visiting an implication from a variable that became true makes the other literal true. -/
theorem visitClause_implies (hc : s.CoreAt level) {id : ClauseId} {kind : Clause N}
    (hw : s.Watching id (negative a)) (hk : s.clauses[id]? = some kind) (himp : kind.arrow = some (a, l))
    (hv : visitClause level (negative a) s id = .ok s') : s'.decisionTracker.eval l = some true := by
  have hbinary := Clause.arrow_isBinary himp
  obtain ⟨kind', w, hk', hw, hlit⟩ := hw
  obtain rfl := Option.some.inj (hk.symm.trans hk')
  have hok := hc.arena.watched id kind w hk hw
  have hmem : ∀ x, x ∈ s.kindLiterals kind ↔ x = negative a ∨ x = l := fun _ => mem_kindLiterals_arrow himp
  -- the watch that is not visited is the implied literal
  have hother : (if w.1 = negative a then w.2 else w.1) = l := by
    by_cases h1 : w.1 = negative a
    · rw [if_pos h1]
      rcases hok.binary hbinary l ((hmem l).mpr (.inr rfl)) with hl | hl
      · rcases (hmem w.2).mp hok.snd with h2 | h2
        · rw [h2, hl, h1]
        · exact h2
      · exact hl.symm
    · rw [if_neg h1]
      exact ((hmem w.1).mp hok.fst).resolve_left h1
  unfold SolverState.visitClause at hv
  simp only [hk, hw, Option.join_some, hother, hbinary, if_true] at hv
  split at hv
  · next htrue =>
      cases hv
      exact htrue
  · exact assign_true hv

/-- Visiting all of them makes all of these literals true. -/
theorem visitClauses_implies (ids : List ClauseId) (hc : s.CoreAt level)
    (hfalse : s.decisionTracker.eval (negative a) = some false) (hids : ∀ id ∈ ids, s.Watching id (negative a))
    (hv : ids.foldlM (visitClause level (negative a)) s = .ok s') :
    Propagates level s s' ∧ ∀ id ∈ ids, ∀ kind l, s.clauses[id]? = some kind →
      kind.arrow = some (a, l) → s'.decisionTracker.eval l = some true := by
  induction ids generalizing s with
  | nil =>
      obtain rfl : s = s' := Except.ok.inj hv
      exact ⟨.refl, fun id hid => by cases hid⟩
  | cons id rest ih =>
      simp only [List.foldlM_cons, bind, Except.bind] at hv
      have hw := hids id List.mem_cons_self
      cases hvisit : visitClause level (negative a) s id with
      | error e =>
          rw [hvisit] at hv
          cases hv
      | ok s₁ =>
          rw [hvisit] at hv
          have hprop : Propagates level s s₁ := (visitClause_spec hc hfalse hw).1 s₁ hvisit
          obtain ⟨hrest, htrue⟩ := ih (Propagates.core hc hprop) (Propagates.eval_mono hprop hfalse)
            (fun i hi => (hids i (List.mem_cons_of_mem _ hi)).propagates hprop) hv
          refine ⟨hprop.trans hrest, fun i hi kind l hk himp => ?_⟩
          rcases List.mem_cons.mp hi with rfl | hi
          · exact Propagates.eval_mono hrest (visitClause_implies hc hw hk himp hvisit)
          · exact htrue i hi kind l ((Propagates.clauses hprop).symm ▸ hk) himp

/-- The state right after the next entry was marked as propagated. -/
theorem Vigilant.marked (hv : Vigilant level (fun _ => False) s) {d : Decision} {t : DecisionTracker}
    (hn : s.decisionTracker.nextUnpropagated = some (d, t)) :
    (s.withTracker t).CoreAt level ∧ d ∈ t.stack := by
  obtain ⟨htrail, -, -, -⟩ := DecisionTracker.done_next hn
  obtain ⟨hd, ht⟩ := DecisionTracker.nextUnpropagated_spec hn
  refine ⟨⟨?_, hv.pos, ?_⟩, ?_⟩
  · obtain ⟨hlt, -⟩ := List.getElem?_eq_some_iff.mp hd
    rw [ht]
    exact hv.toCore.with_index (Nat.succ_le_of_lt hlt) hv.tracker.floor_le
  · show ∀ e ∈ t.trail, e.level ≤ level
    rw [htrail]
    exact hv.bounded
  · rw [ht]
    exact List.mem_of_getElem? hd

/-- **Propagating an entry** assigns whatever its variable implies, at its level. -/
theorem Vigilant.propagate_implies (hv : Vigilant level (fun _ => False) s) {d : Decision}
    {t : DecisionTracker} (hn : s.decisionTracker.nextUnpropagated = some (d, t))
    (hs : (s.withTracker t).propagateDecision level d = .ok s') {id : ClauseId} {kind : Clause N}
    (hk : s.clauses[id]? = some kind) (himp : kind.arrow = some (a, l))
    (hlit : (entryOf d (s.decisionTracker.level d.var)).lit = positive a) :
    ∃ e ∈ s'.decisionTracker.trail, e.lit = l ∧ e.level ≤ (entryOf d (s.decisionTracker.level d.var)).level := by
  obtain ⟨htrail, -, hentry, hrest⟩ := DecisionTracker.done_next hn
  obtain ⟨hc₁, hmem⟩ := hv.marked hn
  have hc' := Propagates.core hc₁ ((propagateDecision_spec hc₁ hmem).1 s' hs)
  have hlevel : (entryOf d (s.decisionTracker.level d.var)).level = level := by
    refine hv.fresh _ ?_
    rw [hrest]
    exact List.mem_cons_self
  have hliteral : (⟨d.var, d.value⟩ : Literal) = negative a := by
    obtain ⟨hvar, hneg⟩ := Lit.mk.inj (show (⟨d.var, !d.value⟩ : Literal) = ⟨a, false⟩ from hlit)
    rw [hvar, show d.value = true by simpa using hneg]
    rfl
  have hfalse : (s.withTracker t).decisionTracker.eval (negative a) = some false := by
    refine hc₁.tracker.eval_false_iff.mpr ⟨_, ?_, hlit⟩
    show _ ∈ t.trail
    rw [htrail]
    exact hentry
  unfold SolverState.propagateDecision at hs
  rw [hliteral] at hs
  have hwatching : ∀ id ∈ (s.withTracker t).watches.getD (negative a) [],
      (s.withTracker t).Watching id (negative a) := fun id hid => hc₁.arena.watches _ id hid
  obtain ⟨-, htrue⟩ := visitClauses_implies _ hc₁ hfalse hwatching hs
  have hid : id ∈ s.watches.getD (negative a) [] := by
    obtain ⟨w, hw, hok⟩ := watched_arrow hv.lists hv.arena hk himp
    refine (hv.lists.mem_iff _ id).mpr ⟨w, hw, ?_⟩
    have hor := hok.binary (Clause.arrow_isBinary himp) (negative a)
      ((mem_kindLiterals_arrow himp).mpr (.inl rfl))
    exact hor.imp Eq.symm Eq.symm
  obtain ⟨e, he, hel⟩ := hc'.tracker.eval_true_iff.mp (htrue id hid kind l hk himp)
  refine ⟨e, he, hel, ?_⟩
  rw [hlevel]
  exact hc'.bounded e he

/-- **Propagating the next entry** keeps the hinges: what it implies is assigned at its level. -/
theorem Hinged.propagate (hv : Vigilant level (fun _ => False) s) (h : Hinged shared s.decisionTracker.done s)
    {d : Decision} {t : DecisionTracker} (hn : s.decisionTracker.nextUnpropagated = some (d, t)) :
    (∀ s', (s.withTracker t).propagateDecision level d = .ok s' → Hinged shared s'.decisionTracker.done s') ∧
    ∀ c s', (s.withTracker t).propagateDecision level d = .error (c, s') →
      Hinged shared s.decisionTracker.done s' := by
  obtain ⟨htrail, hdone, hentry, hrest⟩ := DecisionTracker.done_next hn
  obtain ⟨hc₁, hmem⟩ := hv.marked hn
  have h₁ : Hinged shared s.decisionTracker.done (s.withTracker t) := by
    refine h.grow (fun _ _ hi => hi) fun e he => ?_
    show e ∈ t.trail
    rw [htrail]
    exact he
  have hspec := propagateDecision_spec hc₁ hmem
  refine ⟨fun s' hs' => ?_, fun c s' hs' => h₁.propagates hc₁ (hspec.2 c s' hs').1⟩
  have hprop := hspec.1 s' hs'
  -- what the variable of the entry implies is assigned
  have himplied : ∀ a l, (s.withTracker t).Implies shared a l →
      (entryOf d (s.decisionTracker.level d.var)).lit = positive a →
      ∃ e ∈ s'.decisionTracker.trail, e.lit.var = l.var ∧
        e.level ≤ (entryOf d (s.decisionTracker.level d.var)).level := by
    rintro a l ⟨id, kind, hk, himp, -⟩ hlit
    obtain ⟨e, he, hel, hle⟩ := hv.propagate_implies hn hs' hk (Clause.arrow_of_implication himp) hlit
    exact ⟨e, he, by rw [hel], hle⟩
  intro a b l ha hb ea hea hla eb heb hlb
  have ha' := (Propagates.implies hprop).mp ha
  have hb' := (Propagates.implies hprop).mp hb
  rw [Propagates.done hc₁ hprop, show (s.withTracker t).decisionTracker.done = _ from hdone] at hea heb
  rcases List.mem_append.mp hea with hea | hea
  · rcases List.mem_append.mp heb with heb | heb
    · exact h₁.propagates hc₁ hprop a b l ha hb ea hea hla eb heb hlb
    · obtain rfl := List.mem_singleton.mp heb
      obtain ⟨e, he, hvar, hle⟩ := himplied b l.neg hb' hlb
      exact ⟨e, he, hvar, le_max_of_le_right hle⟩
  · obtain rfl := List.mem_singleton.mp hea
    obtain ⟨e, he, hvar, hle⟩ := himplied a l ha' hla
    exact ⟨e, he, hvar, le_max_of_le_left hle⟩

end SolverState

/-! ## What the encoder adds -/

namespace SolverState

variable {level : Nat} {exempt : ClauseId → Prop} {part : Trail VariableId ClauseId}
  {s : SolverState N S F} {a : VariableId} {l : Literal}

/-- An implication is not false on what was propagated. -/
theorem Watchful.implication (hv : Watchful level part exempt s) {id : ClauseId} {kind : Clause N}
    (hk : s.clauses[id]? = some kind) (himp : kind.implication = some (a, l)) (hnot : ¬ exempt id)
    (ha : part.Falsifies (negative a)) : ¬ part.Falsifies l := by
  intro hl
  obtain ⟨w, hw, hok⟩ := watched_arrow hv.lists hv.arena hk (Clause.arrow_of_implication himp)
  rw [kindLiterals_implication himp] at hok
  -- both watches are literals of the clause
  have hfalse : ∀ x ∈ [negative a, l], part.Falsifies x := by
    intro x hx
    rcases List.mem_pair.mp hx with rfl | rfl
    · exact ha
    · exact hl
  exact hv.visited id w hnot hw ⟨hfalse _ hok.fst, hfalse _ hok.snd⟩

variable (P : DependencyProvider N S)

/-- The true candidates of a package that allows one version have one variable. -/
def OneVersion (s : SolverState N S F) : Prop :=
  ∀ x y v w, s.IsVar (.solvable x) v → s.IsVar (.solvable y) w → s.value v = some true →
    s.value w = some true → P.solvableName x = P.solvableName y →
    (P.candidatesOf (P.solvableName x)).allowMultiple = false → v = w

/-- No entry that waits for propagation makes a one-sided variable false. -/
def WaitsOneSided (s : SolverState N S F) : Prop :=
  ∀ e ∈ s.decisionTracker.trail.drop s.decisionTracker.propagateIndex,
    ∀ o, s.variableMap.origins[e.lit.var]? = some o → o.OneSided → e.lit.negate = false

end SolverState

section Encoder

variable {P : DependencyProvider N S} {problem : Problem S} {A : RunFacts} {enc enc' : Encoder N S F}
  {shared : Prop} {watched : Option Watches} {kind : Clause N} {outcome : EmitOutcome} {a b : VariableId} {l : Literal}

/-- The auxiliary variable of an implication belongs to a version set or to a package. -/
theorem Origin.implied (h : Origin P problem enc.state kind)
    (hok : enc.state.Tables P enc.newAtLeastOnePackages) (himp : kind.implication = some (a, l)) :
    (∃ vs, kind = .constrainsExcluded a l.var vs ∧ l = positive l.var ∧
      enc.state.variableMap.origins[l.var]? = some (.constrainsViolation vs)) ∨
    (∃ vs, kind = .constrainsParent a l.var vs ∧ l = negative l.var ∧
      enc.state.variableMap.origins[l.var]? = some (.constrainsViolation vs)) ∨
    ∃ name, kind = .forbidMultipleInstances a l name ∧
      enc.state.variableMap.origins[l.var]? = some (.forbidMultiple name) := by
  cases kind with
  | constrainsExcluded candidate aux vs =>
      cases himp
      obtain ⟨x, -, haux, -⟩ := h
      exact .inl ⟨vs, rfl, rfl, haux⟩
  | constrainsParent parent aux vs =>
      cases himp
      obtain ⟨p, -, haux, -⟩ := h
      exact .inr (.inl ⟨vs, rfl, rfl, hok.auxs vs aux haux⟩)
  | forbidMultipleInstances candidate other name =>
      cases himp
      obtain ⟨tr, i, j, htr, -, hi, -⟩ := h
      exact .inr (.inr ⟨name, rfl, (hok.trackers name tr htr).helpers _ (List.mem_of_getElem? hi)⟩)
  | _ => cases himp

/-- Two candidates of a package that imply opposite helpers are not both true. -/
theorem forbid_apart (hok : EncOk P problem (A.Ordered P problem) enc) (hA : A.Ordered P problem)
    (hP : P.WellFormed) (hone : enc.state.OneVersion P) {name : N}
    (h : Origin P problem enc.state (.forbidMultipleInstances a l name))
    (h' : Origin P problem enc.state (.forbidMultipleInstances b l.neg name))
    (ha : enc.state.value a = some true) (hb : enc.state.value b = some true) : False := by
  obtain ⟨tr, i, j, htr, hj, hi, hbit⟩ := h
  obtain ⟨tr', i', j', htr', hj', hi', hbit'⟩ := h'
  obtain rfl := Option.some.inj (htr.symm.trans htr')
  have htracker := hok.tables.trackers name tr htr
  -- the helper has one place, and the candidates disagree on its bit
  obtain rfl : i = i' := by
    rw [Lit.neg_var] at hi'
    obtain ⟨hlt, heq⟩ := List.getElem?_eq_some_iff.mp hi
    obtain ⟨hlt', heq'⟩ := List.getElem?_eq_some_iff.mp hi'
    exact htracker.helpers_nodup.getElem_inj_iff.mp (heq.trans heq'.symm)
  obtain ⟨x, hx, hxv⟩ := htracker.vars a (List.mem_of_getElem? hj)
  obtain ⟨y, hy, hyv⟩ := htracker.vars b (List.mem_of_getElem? hj')
  have hname := hP.candidate_name name x hx
  obtain rfl : a = b := by
    refine hone x y a b hxv hyv ha hb (hname.trans (hP.candidate_name name y hy).symm) ?_
    rw [hname]
    exact (hok.trackers hA name tr htr).2
  obtain rfl : j = j' := by
    obtain ⟨hlt, heq⟩ := List.getElem?_eq_some_iff.mp hj
    obtain ⟨hlt', heq'⟩ := List.getElem?_eq_some_iff.mp hj'
    exact htracker.vars_nodup.getElem_inj_iff.mp (heq.trans heq'.symm)
  have hneg : l.neg.negate = !l.negate := rfl
  rw [hneg, hbit] at hbit'
  simp at hbit'

/-- A clause that is not reported says nothing about an auxiliary variable it excludes a candidate with that a
    parent's clause rules out. -/
theorem OutcomeOk.no_parent {s : SolverState N S F} {aux : VariableId} {vs : VersionSetId}
    (h : OutcomeOk P A s (.constrainsExcluded a aux vs) outcome) (hne : outcome ≠ .flagged) :
    ∀ (id : ClauseId) p vs, s.clauses[id]? ≠ some (.constrainsParent p aux vs) := by
  cases outcome with
  | idle => exact h.2
  | flagged => exact absurd rfl hne
  | forced l => exact h.2.2.2.2.2
  | assertion v flag =>
      have hlits := h.1
      rw [kindLiterals_implication rfl] at hlits
      cases hlits

/-- A parent whose clause is added while it is true leaves the auxiliary variable open. -/
theorem EmitOk.parent_idle {aux : VariableId} {vs : VersionSetId}
    (h : EmitOk P problem A enc watched (.constrainsParent a aux vs) outcome) (hne : outcome ≠ .flagged)
    (ho : enc.state.variableMap.origins[aux]? = some (.constrainsViolation vs))
    (ha : enc.state.decisionTracker.eval (negative a) = some false) : outcome = .idle := by
  have hlits : enc.state.kindLiterals (.constrainsParent a aux vs) = [negative a, negative aux] :=
    kindLiterals_implication rfl
  cases outcome with
  | idle => rfl
  | flagged => exact absurd rfl hne
  | forced l =>
      obtain ⟨hnot, hside⟩ := h.noticed.forced l rfl
      have hmem := h.outcome.1
      rw [hlits] at hmem
      rcases List.mem_pair.mp hmem with rfl | rfl
      · exact absurd ha hnot
      · -- the encoder does not make the auxiliary variable false
        cases hside _ ho trivial
  | assertion v flag =>
      have hv := h.outcome.1
      rw [hlits] at hv
      cases hv

/-- **A new implication makes no pair** of propagated variables that imply opposite literals. -/
theorem EmitOk.apart (h : EmitOk P problem A enc watched kind outcome) (hP : P.WellFormed)
    (hok : EncOk P problem (A.Ordered P problem) enc) (hA : A.Ordered P problem) (hun : shared → A.unstranded)
    (hv : Vigilant enc.level (· ∈ enc.conflictingClauses) enc.state) (hflags : enc.conflictingClauses = [])
    (hne : outcome ≠ .flagged) (hone : enc.state.OneVersion P) (hwaits : enc.state.WaitsOneSided)
    (himp : kind.implication = some (a, l)) (hshared : kind.IsShared → shared)
    (hb : enc.state.Implies shared b l.neg)
    (hadone : enc.state.decisionTracker.done.Falsifies (negative a))
    (hbdone : enc.state.decisionTracker.done.Falsifies (negative b)) : False := by
  have hafalse := hv.eval_false hadone
  have hatrue : enc.state.value a = some true := by
    obtain ⟨e, he, hlit⟩ := hadone
    exact hv.tracker.assignedValue_iff.mpr ⟨e, hv.sub e he, hlit⟩
  have hbtrue : enc.state.value b = some true := by
    obtain ⟨e, he, hlit⟩ := hbdone
    exact hv.tracker.assignedValue_iff.mpr ⟨e, hv.sub e he, hlit⟩
  obtain ⟨id, kind', hk, himp', -⟩ := hb
  have horigin' : Origin P problem enc.state kind' := by
    refine hok.origins id kind' hk ?_ ?_
    · rintro rfl
      cases himp'
    · rintro k rfl
      cases himp'
  rcases h.origin.implied hok.tables himp with ⟨vs, rfl, hl, ho⟩ | ⟨vs, rfl, hl, ho⟩ | ⟨name, rfl, ho⟩
  · -- no parent rules out the variable of a version set whose candidates are still being excluded
    rcases horigin'.implied hok.tables himp' with ⟨vs', -, hl', -⟩ | ⟨vs', rfl, -, -⟩ | ⟨name, -, ho'⟩
    · rw [hl] at hl'
      cases hl'
    · exact h.outcome.no_parent hne id _ vs' hk
    · cases ho.symm.trans ho'
  · rcases horigin'.implied hok.tables himp' with ⟨vs', rfl, hl', ho'⟩ | ⟨vs', -, hl', -⟩ | ⟨name, -, ho'⟩
    · cases ho.symm.trans ho'
      obtain rfl := h.parent_idle hne ho hafalse
      obtain ⟨hopen, hunst⟩ := h.outcome
      cases hvalue : enc.state.value l.var with
      | none =>
          -- a true candidate would strand the variable
          obtain ⟨x, hx, -, hm⟩ := horigin'
          have hnot := hunst (hun (hshared trivial)) hatrue hvalue x hm
          rw [isPositivelyDecided_iff.mpr ⟨b, hx, hbtrue⟩] at hnot
          cases hnot
      | some value =>
          cases value with
          | true =>
              obtain ⟨x, hx, hxopen⟩ := hopen
              rw [kindLiterals_implication rfl] at hx
              rcases List.mem_pair.mp hx with rfl | rfl
              · exact hxopen hafalse
              · refine hxopen ?_
                unfold DecisionTracker.eval Lit.eval
                rw [show enc.state.decisionTracker.map.value (negative l.var).var = some true from hvalue]
                rfl
          | false =>
              obtain ⟨e, he, hlit⟩ := hv.tracker.assignedValue_iff.mp hvalue
              rcases enc.state.decisionTracker.mem_done_or he with he | he
              · refine hv.implication hk himp' ?_ hbdone ⟨e, he, ?_⟩
                · rw [hflags]
                  exact List.not_mem_nil
                · rw [hl', Lit.neg_var]
                  exact hlit
              · have hpos := hwaits e he (.constrainsViolation vs) (by rw [hlit]; exact ho) trivial
                rw [hlit] at hpos
                cases hpos
    · rw [hl] at hl'
      cases hl'
    · cases ho.symm.trans ho'
  · rcases horigin'.implied hok.tables himp' with ⟨vs', -, -, ho'⟩ | ⟨vs', -, -, ho'⟩ | ⟨name', rfl, ho'⟩
    · cases ho.symm.trans ho'
    · cases ho.symm.trans ho'
    · cases ho.symm.trans ho'
      exact forbid_apart hok hA hP hone h.origin horigin' hatrue hbtrue

/-! ## Steps of the encoder -/

/-- The encoder makes no solvable true. -/
theorem EncStep.oneVersion (h : EncStep P problem A enc enc')
    (hok : enc.state.Tables P enc.newAtLeastOnePackages) (ht : EncTrail P A enc)
    (hone : enc.state.OneVersion P) : enc'.state.OneVersion P := by
  intro x y v w hx hy hv hw hname hmulti
  obtain ⟨hx', hv'⟩ := h.positive_of hok ht hx hv
  obtain ⟨hy', hw'⟩ := h.positive_of hok ht hy hw
  exact hone x y v w hx' hy' hv' hw' hname hmulti

/-- A forced literal of a one-sided variable is positive. -/
theorem EncStep.waitsOneSided (h : EncStep P problem A enc enc')
    (hok : enc.state.Tables P enc.newAtLeastOnePackages) (ht : EncTrail P A enc)
    (hwaits : enc.state.WaitsOneSided) : enc'.state.WaitsOneSided := by
  have hg := h.grows hok
  -- an assigned variable keeps its origin
  have hback : ∀ v o, v < enc.state.variableMap.origins.length →
      enc'.state.variableMap.origins[v]? = some o → enc.state.variableMap.origins[v]? = some o := by
    intro v o hlt ho
    have hold := List.getElem?_eq_getElem hlt
    rw [hg.vars.origin hold] at ho
    rw [hold]
    exact ho
  have hold : ∀ e ∈ enc.state.decisionTracker.trail.drop enc.state.decisionTracker.propagateIndex,
      ∀ o, enc'.state.variableMap.origins[e.lit.var]? = some o → o.OneSided → e.lit.negate = false :=
    fun e he o ho => hwaits e he o (hback _ o (ht.allocated e (List.mem_of_mem_drop he)) ho)
  intro e he
  rcases h.trail_cases hok ht.core with heq | ⟨watched, kind, l, hemit, -, hnone, -, heq⟩
  · rw [heq] at he
    exact hold e he
  · rw [heq, DecisionTracker.push_trail ht.core.tracker hnone, DecisionTracker.push_propagateIndex,
      List.drop_append_of_le_length (by simpa using ht.core.tracker.propagate_le)] at he
    rcases List.mem_append.mp he with he | he
    · exact hold e he
    · intro o ho hside
      have hlit : e.lit = l := by
        rw [List.mem_singleton.mp he]
        exact forced_lit l _
      rw [hlit] at ho ⊢
      exact (hemit.noticed.forced l rfl).2 o (hback _ o hemit.outcome.2.1 ho) hside

/-- **Every step of the encoder** keeps the hinges, as long as it reports no conflict. -/
theorem EncStep.hinged (h : EncStep P problem A enc enc') (hP : P.WellFormed)
    (hg : EncGood P problem A enc) (hA : A.Ordered P problem) (hun : shared → A.unstranded)
    (hv : Vigilant enc.level (· ∈ enc.conflictingClauses) enc.state) (hone : enc.state.OneVersion P)
    (hwaits : enc.state.WaitsOneSided)
    (hh : enc.conflictingClauses = [] → Hinged shared enc.state.decisionTracker.done enc.state)
    (hflags : enc'.conflictingClauses = []) : Hinged shared enc'.state.decisionTracker.done enc'.state := by
  have hok := hg.ok.tables
  obtain ⟨hdone, -⟩ := h.fresh hok hv.toCoreAt hv.fresh
  have htrail := (h.trail_prefix hok hv.toCoreAt).1.subset
  rw [hdone]
  rcases h.search_cases hok with ⟨hs, hsame, -⟩ | ⟨watched, kind, outcome, hemit, rfl⟩ |
    ⟨gate, parent, id, -, rfl⟩
  · refine (hh (hsame.symm.trans hflags)).grow (fun a l ha => ?_) htrail
    obtain ⟨id, kind, hk, himp⟩ := ha
    exact ⟨id, kind, hs.clauses ▸ hk, himp⟩
  · have he := emit_spec P enc watched kind outcome
    have hnil : enc.conflictingClauses = [] := by
      refine List.eq_nil_iff_forall_not_mem.mpr fun i hi => ?_
      have := he.flags i hi
      rw [hflags] at this
      cases this
    have hne : outcome ≠ .flagged := by
      intro ho
      have := he.flagged ho
      rw [hflags] at this
      cases this
    have hcases : ∀ {a l}, (enc.emit P watched kind outcome).state.Implies shared a l →
        enc.state.Implies shared a l ∨ (kind.implication = some (a, l) ∧ (kind.IsShared → shared)) := by
      rintro a l ⟨id, kind', hk, himp, hshared⟩
      rw [he.clauses] at hk
      by_cases hid : id < enc.state.clauses.length
      · rw [List.getElem?_append_left hid] at hk
        exact .inl ⟨id, kind', hk, himp, hshared⟩
      · rw [List.getElem?_append_right (Nat.not_lt.mp hid)] at hk
        rw [List.mem_singleton.mp (List.mem_of_getElem? hk)] at himp hshared
        exact .inr ⟨himp, hshared⟩
    have hapart : ∀ {a b l}, kind.implication = some (a, l) ∧ (kind.IsShared → shared) →
        enc.state.Implies shared b l.neg →
        ∀ ea ∈ enc.state.decisionTracker.done, ea.lit = positive a →
        ∀ eb ∈ enc.state.decisionTracker.done, eb.lit = positive b → False :=
      fun himp hb ea hea hla eb heb hlb => hemit.apart hP hg.ok hA hun hv hnil hne hone hwaits himp.1 himp.2 hb
        ⟨ea, hea, hla⟩ ⟨eb, heb, hlb⟩
    intro a b l ha hb ea hea hla eb heb hlb
    rcases hcases ha with ha | ha
    · rcases hcases hb with hb | hb
      · obtain ⟨e, he, hvar, hle⟩ := hh hnil a b l ha hb ea hea hla eb heb hlb
        exact ⟨e, htrail he, hvar, hle⟩
      · refine (hapart hb ?_ eb heb hlb ea hea hla).elim
        rw [Lit.neg_neg]
        exact ha
    · rcases hcases hb with hb | hb
      · exact (hapart ha hb ea hea hla eb heb hlb).elim
      · -- one clause does not imply both
        have hb := hb.1
        rw [ha.1] at hb
        obtain ⟨-, hl⟩ := Prod.mk.inj (Option.some.inj hb)
        exact absurd (congrArg Lit.negate hl) (by simp)
  · exact (hh hflags).grow (fun _ _ ha => ha) htrail

/-- **Any number of steps of the encoder.** -/
theorem EncSteps.hinged (h : EncSteps P problem A enc enc') (hP : P.WellFormed) (hhard : A.hard)
    (htracked : A.tracked) (hun : shared → A.unstranded) (hg : EncGood P problem A enc)
    (hv : Vigilant enc.level (· ∈ enc.conflictingClauses) enc.state) (hone : enc.state.OneVersion P)
    (hwaits : enc.state.WaitsOneSided)
    (hh : enc.conflictingClauses = [] → Hinged shared enc.state.decisionTracker.done enc.state) :
    enc'.state.OneVersion P ∧ enc'.state.WaitsOneSided ∧
      (enc'.conflictingClauses = [] → Hinged shared enc'.state.decisionTracker.done enc'.state) := by
  induction h with
  | refl => exact ⟨hone, hwaits, hh⟩
  | tail hpre hstep ih =>
      obtain ⟨hone', hwaits', hh'⟩ := ih
      have hg' := EncSteps.good hpre hP hg
      have hv' := EncSteps.vigilant hpre hP hhard htracked hg hv
      exact ⟨hstep.oneVersion hg'.ok.tables hg'.trail hone', hstep.waitsOneSided hg'.ok.tables hg'.trail hwaits',
        hstep.hinged hP hg' (.inl hhard) hun hv' hone' hwaits' hh'⟩

end Encoder

end Resolvo
