import Resolvo.Lib.Trail
import Resolvo.Model.Tracker

/-!
# `Correctness.Tracker` — the decision tracker as a trail

The tracker keeps an assignment map and a chronological stack side by side. Well-formedness ties the two
together; every operation the solver uses on a tracker either appends one entry or pops a suffix.
-/

namespace Resolvo

open Sat

/-- The literal a decision makes true. -/
def Decision.lit (d : Decision) : Literal := ⟨d.var, !d.value⟩

@[simp] theorem Decision.lit_var (d : Decision) : d.lit.var = d.var := rfl
@[simp] theorem Decision.lit_negate (d : Decision) : d.lit.negate = !d.value := rfl

@[simp] theorem Decision.lit_of_literal (l : Literal) (id : ClauseId) :
    Decision.lit ⟨l.var, l.satisfyingValue, id⟩ = l := by simp [Decision.lit, Lit.satisfyingValue]

namespace DecisionMap

theorem entry_set (m : DecisionMap) (v v' : VariableId) (b : Bool) (level : Nat) :
    (m.set v b level).entry v' = if v = v' then some (b, level) else m.entry v' := by
  have hlen : v < (m.map ++ List.replicate (v + 1 - m.map.length) none).length := by
    have (a b : Nat) : a < b + (a + 1 - b) := by omega
    rw [List.length_append, List.length_replicate]
    exact this v m.map.length
  simp only [entry, set, List.getElem?_set, hlen, if_true]
  by_cases hv : v = v'
  · simp [hv]
  · simp only [hv, if_false]
    by_cases hlt : v' < m.map.length
    · rw [List.getElem?_append_left hlt]
    · rw [List.getElem?_append_right (Nat.not_lt.mp hlt),
        List.getElem?_eq_none (Nat.not_lt.mp hlt), List.getElem?_replicate]
      split <;> rfl

theorem entry_reset (m : DecisionMap) (v v' : VariableId) :
    (m.reset v).entry v' = if v = v' then none else m.entry v' := by
  simp only [entry, reset, List.getElem?_set]
  by_cases hv : v = v'
  · subst hv
    by_cases hlt : v < m.map.length <;> simp [hlt]
  · simp [hv]

theorem value_set (m : DecisionMap) (v v' : VariableId) (b : Bool) (level : Nat) :
    (m.set v b level).value v' = if v = v' then some b else m.value v' := by
  simp only [value, entry_set]
  split <;> rfl

theorem value_reset (m : DecisionMap) (v v' : VariableId) :
    (m.reset v).value v' = if v = v' then none else m.value v' := by
  simp only [value, entry_reset]
  split <;> rfl

theorem level_set (m : DecisionMap) (v v' : VariableId) (b : Bool) (level : Nat) :
    (m.set v b level).level v' = if v = v' then level else m.level v' := by
  simp only [DecisionMap.level, entry_set]
  split <;> rfl

theorem level_reset_ne (m : DecisionMap) {v v' : VariableId} (h : v ≠ v') :
    (m.reset v).level v' = m.level v' := by
  simp [DecisionMap.level, entry_reset, h]

end DecisionMap

namespace DecisionTracker

/-- The stack with the level of each entry. -/
def trail (t : DecisionTracker) : Trail VariableId ClauseId :=
  t.stack.map fun d => ⟨d.lit, t.level d.var, d.derivedFrom⟩

@[simp] theorem trail_length (t : DecisionTracker) : t.trail.length = t.stack.length := by
  simp [trail]

theorem mem_trail {t : DecisionTracker} {e : Entry VariableId ClauseId} :
    e ∈ t.trail ↔ ∃ d ∈ t.stack, e = ⟨d.lit, t.level d.var, d.derivedFrom⟩ := by
  simp [trail, eq_comm]

/-- The assignment and the stack describe the same decisions, in the order of their levels. -/
structure WF (t : DecisionTracker) : Prop where
  nodup : (t.stack.map Decision.var).Nodup
  value_iff : ∀ v b, t.map.value v = some b ↔ ∃ d ∈ t.stack, d.var = v ∧ d.value = b
  sorted : t.trail.Sorted
  pos : ∀ e ∈ t.trail, 1 ≤ e.level
  propagate_le : t.propagateIndex ≤ t.stack.length
  floor_le : t.syncFloor ≤ t.stack.length

theorem level_of_mem_trail {t : DecisionTracker} {e : Entry VariableId ClauseId}
    (h : e ∈ t.trail) : t.level e.lit.var = e.level := by
  obtain ⟨d, _, rfl⟩ := mem_trail.mp h
  rfl

namespace WF

variable {t : DecisionTracker}

theorem empty : WF {} where
  nodup := by simp
  value_iff := by simp [DecisionMap.value, DecisionMap.entry]
  sorted := by simp [trail, Trail.Sorted]
  pos := by simp [trail]
  propagate_le := le_rfl
  floor_le := le_rfl

/-- A variable has a value exactly when an entry assigns it. -/
theorem assignedValue_iff (h : t.WF) {v : VariableId} {b : Bool} :
    t.assignedValue v = some b ↔ ∃ e ∈ t.trail, e.lit = ⟨v, !b⟩ := by
  rw [assignedValue, h.value_iff]
  constructor
  · rintro ⟨d, hd, rfl, rfl⟩
    exact ⟨_, mem_trail.mpr ⟨d, hd, rfl⟩, rfl⟩
  · rintro ⟨e, he, hl⟩
    obtain ⟨d, hd, rfl⟩ := mem_trail.mp he
    simp only [Decision.lit, Lit.mk.injEq, Bool.not_eq_eq_eq_not, Bool.not_not] at hl
    exact ⟨d, hd, hl.1, hl.2⟩

theorem eval_true_iff (h : t.WF) {l : Literal} :
    t.eval l = some true ↔ ∃ e ∈ t.trail, e.lit = l := by
  obtain ⟨v, n⟩ := l
  have hv := h.assignedValue_iff (v := v) (b := !n)
  rw [Bool.not_not] at hv
  rw [← hv]
  simp only [eval, Lit.eval, assignedValue]
  cases t.map.value v with
  | none => simp
  | some b => cases b <;> cases n <;> simp

theorem eval_false_iff (h : t.WF) {l : Literal} :
    t.eval l = some false ↔ t.trail.Falsifies l := by
  have hn := h.eval_true_iff (l := l.neg)
  rw [Trail.Falsifies, ← hn]
  obtain ⟨v, n⟩ := l
  simp only [eval, Lit.eval, Lit.neg_var, Lit.neg_negate]
  cases t.map.value v with
  | none => simp
  | some b => cases b <;> cases n <;> simp

theorem assignedValue_none_iff (h : t.WF) {v : VariableId} :
    t.assignedValue v = none ↔ ∀ e ∈ t.trail, e.lit.var ≠ v := by
  constructor
  · intro hn e he hv
    have : t.assignedValue v = some (!e.lit.negate) :=
      h.assignedValue_iff.mpr ⟨e, he, by rw [← hv]; simp⟩
    rw [hn] at this
    cases this
  · intro hne
    cases hv : t.assignedValue v with
    | none => rfl
    | some b =>
        obtain ⟨e, he, hl⟩ := h.assignedValue_iff.mp hv
        exact absurd (by rw [hl]) (hne e he)

/-- Entries of the same variable are the same entry. -/
theorem entry_unique (h : t.WF) {e e' : Entry VariableId ClauseId} (he : e ∈ t.trail)
    (he' : e' ∈ t.trail) (hv : e.lit.var = e'.lit.var) : e = e' := by
  obtain ⟨d, hd, rfl⟩ := mem_trail.mp he
  obtain ⟨d', hd', rfl⟩ := mem_trail.mp he'
  obtain rfl := List.inj_on_of_nodup_map h.nodup hd hd' hv
  rfl

theorem vars_nodup (h : t.WF) : (t.trail.map fun e => e.lit.var).Nodup := by
  have heq : (t.trail.map fun e => e.lit.var) = t.stack.map Decision.var := by
    unfold trail
    rw [List.map_map]
    rfl
  rw [heq]
  exact h.nodup

theorem trail_nodup (h : t.WF) : t.trail.Nodup := h.vars_nodup.of_map _

/-- A falsified literal of a variable is the only one. -/
theorem falsifies_unique (h : t.WF) {l m : Literal} (hl : t.trail.Falsifies l)
    (hm : t.trail.Falsifies m) (hv : l.var = m.var) : l = m := by
  obtain ⟨e, he, hel⟩ := hl
  obtain ⟨e', he', hem⟩ := hm
  obtain rfl := h.entry_unique he he' (by rw [hel, hem]; exact hv)
  rw [← Lit.neg_neg l, ← hel, hem, Lit.neg_neg]

/-- No literal is true and false at once. -/
theorem not_falsifies (h : t.WF) {e : Entry VariableId ClauseId} (he : e ∈ t.trail) :
    ¬ t.trail.Falsifies e.lit := by
  rintro ⟨e', he', hl⟩
  obtain rfl := h.entry_unique he he' (by rw [hl]; rfl)
  exact Lit.neg_ne _ hl.symm

end WF

/-! ## Appending an entry -/

/-- Append a decision for an unassigned variable. -/
def push (t : DecisionTracker) (d : Decision) (level : Nat) : DecisionTracker :=
  { t with map := t.map.set d.var d.value level, stack := t.stack ++ [d] }

/-- What `tryAddDecision` can do. -/
theorem tryAddDecision_cases {t t' : DecisionTracker} {d : Decision} {level : Nat} {b : Bool}
    (h : t.tryAddDecision d level = some (b, t')) :
    (b = true ∧ t.assignedValue d.var = none ∧ t' = t.push d level) ∨
      (b = false ∧ t.assignedValue d.var = some d.value ∧ t' = t) := by
  simp only [tryAddDecision] at h
  split at h
  · next hv =>
      simp only [Option.some.injEq, Prod.mk.injEq] at h
      exact .inl ⟨h.1.symm, hv, h.2.symm⟩
  · next value hv =>
      split at h
      · next heq =>
          simp only [Option.some.injEq, Prod.mk.injEq] at h
          exact .inr ⟨h.1.symm, heq ▸ hv, h.2.symm⟩
      · cases h

/-- `tryAddDecision` fails exactly on the opposite value. -/
theorem tryAddDecision_eq_none {t : DecisionTracker} {d : Decision} {level : Nat} :
    t.tryAddDecision d level = none ↔ t.assignedValue d.var = some (!d.value) := by
  simp only [tryAddDecision, assignedValue]
  cases t.map.value d.var with
  | none => simp
  | some value => cases value <;> cases d.value <;> simp

/-- A variable that is not assigned can be assigned. -/
theorem tryAddDecision_of_none {t : DecisionTracker} {d : Decision} (h : t.assignedValue d.var = none)
    (level : Nat) : t.tryAddDecision d level = some (true, t.push d level) := by
  have hv : t.map.value d.var = none := h
  unfold tryAddDecision
  rw [hv]
  rfl

@[simp] theorem push_stack (t : DecisionTracker) (d : Decision) (level : Nat) :
    (t.push d level).stack = t.stack ++ [d] := rfl

@[simp] theorem push_propagateIndex (t : DecisionTracker) (d : Decision) (level : Nat) :
    (t.push d level).propagateIndex = t.propagateIndex := rfl

@[simp] theorem push_syncFloor (t : DecisionTracker) (d : Decision) (level : Nat) :
    (t.push d level).syncFloor = t.syncFloor := rfl

theorem push_assignedValue (t : DecisionTracker) (d : Decision) (level : Nat) (v : VariableId) :
    (t.push d level).assignedValue v = if d.var = v then some d.value else t.assignedValue v := by
  simp only [assignedValue, push, DecisionMap.value_set]

/-- A literal that has a value keeps it when another variable is assigned. -/
theorem eval_push {t : DecisionTracker} {d : Decision} {level : Nat} (hd : t.assignedValue d.var = none)
    {l : Literal} {b : Bool} (hl : t.eval l = some b) : (t.push d level).eval l = some b := by
  have hv := t.push_assignedValue d level l.var
  simp only [assignedValue] at hv hd
  simp only [eval, Lit.eval] at hl ⊢
  rw [hv]
  by_cases heq : d.var = l.var
  · rw [← heq, hd] at hl
    cases hl
  · simpa [heq] using hl

/-- The assignment and the stack describe the same decisions. -/
structure Assigned (t : DecisionTracker) : Prop where
  nodup : (t.stack.map Decision.var).Nodup
  value_iff : ∀ v b, t.map.value v = some b ↔ ∃ d ∈ t.stack, d.var = v ∧ d.value = b

theorem WF.assigned {t : DecisionTracker} (h : t.WF) : t.Assigned := ⟨h.nodup, h.value_iff⟩

namespace Assigned

variable {t : DecisionTracker} {d : Decision}

theorem empty : Assigned {} := WF.empty.assigned

theorem var_notMem (h : t.Assigned) (hd : t.assignedValue d.var = none) : ∀ d' ∈ t.stack, d'.var ≠ d.var := by
  intro d' hd' hv
  have hvalue : t.assignedValue d.var = some d'.value := (h.value_iff d.var d'.value).mpr ⟨d', hd', hv, rfl⟩
  rw [hd] at hvalue
  cases hvalue

/-- Appending a decision for an unassigned variable. -/
theorem push (h : t.Assigned) (hd : t.assignedValue d.var = none) (level : Nat) : (t.push d level).Assigned where
  nodup := by
    rw [push_stack, List.map_append]
    refine List.nodup_append.mpr ⟨h.nodup, List.nodup_singleton _, ?_⟩
    intro v hv w hw hvw
    obtain ⟨d', hd', rfl⟩ := List.mem_map.mp hv
    exact h.var_notMem hd d' hd' (hvw.trans (List.mem_singleton.mp hw))
  value_iff := by
    intro v b
    have hvalue := t.push_assignedValue d level v
    simp only [assignedValue] at hvalue
    rw [hvalue]
    by_cases hv : d.var = v
    · subst hv
      simp only [if_true, Option.some.injEq, push_stack, List.mem_append, List.mem_singleton]
      constructor
      · rintro rfl
        exact ⟨d, .inr rfl, rfl, rfl⟩
      · rintro ⟨d', hd' | rfl, hvar, hval⟩
        · exact absurd hvar (h.var_notMem hd d' hd')
        · exact hval
    · simp only [hv, if_false, push_stack, List.mem_append, List.mem_singleton]
      rw [h.value_iff]
      constructor
      · rintro ⟨d', hd', hvar, hval⟩
        exact ⟨d', .inl hd', hvar, hval⟩
      · rintro ⟨d', hd' | rfl, hvar, hval⟩
        · exact ⟨d', hd', hvar, hval⟩
        · exact absurd hvar hv

theorem push_trail (h : t.Assigned) (hd : t.assignedValue d.var = none) (level : Nat) :
    (t.push d level).trail = t.trail ++ [⟨d.lit, level, d.derivedFrom⟩] := by
  have hlevel : ∀ v, (t.push d level).level v = if d.var = v then level else t.level v :=
    fun v => DecisionMap.level_set t.map d.var v d.value level
  simp only [trail, push_stack, List.map_append, List.map_cons, List.map_nil, hlevel, if_true]
  congr 1
  refine List.map_congr_left fun d' hd' => ?_
  have : d.var ≠ d'.var := fun hv => h.var_notMem hd d' hd' hv.symm
  simp [this]

theorem ne_last (h : t.Assigned) (hlast : t.stack.getLast? = some d) :
    ∀ d' ∈ t.stack.dropLast, d.var ≠ d'.var := by
  have hnodup := h.nodup
  rw [← List.dropLast_append_getLast? d hlast, List.map_append, List.nodup_append] at hnodup
  intro d' hd' hv
  exact hnodup.2.2 _ (List.mem_map_of_mem hd') d.var (List.mem_singleton.mpr rfl) hv.symm

/-- Removing the last decision. -/
theorem pop (h : t.Assigned) (hlast : t.stack.getLast? = some d) (i j : Nat) :
    Assigned ⟨t.map.reset d.var, t.stack.dropLast, i, j⟩ where
  nodup := (List.dropLast_sublist t.stack).map _ |>.nodup h.nodup
  value_iff := by
    intro v b
    rw [DecisionMap.value_reset]
    by_cases hv : d.var = v
    · subst hv
      simp only [if_true, reduceCtorEq, false_iff]
      rintro ⟨d', hd', hvar, -⟩
      exact h.ne_last hlast d' hd' hvar.symm
    · rw [if_neg hv, h.value_iff]
      constructor
      · rintro ⟨d', hd', hvar, hval⟩
        rw [← List.dropLast_append_getLast? d hlast] at hd'
        rcases List.mem_append.mp hd' with hd' | hd'
        · exact ⟨d', hd', hvar, hval⟩
        · rw [List.mem_singleton.mp hd'] at hvar
          exact absurd hvar hv
      · rintro ⟨d', hd', hvar, hval⟩
        exact ⟨d', List.mem_of_mem_dropLast hd', hvar, hval⟩

/-- What is left of the trail keeps its levels. -/
theorem pop_trail (h : t.Assigned) (hlast : t.stack.getLast? = some d) (i j : Nat) :
    t.trail = trail ⟨t.map.reset d.var, t.stack.dropLast, i, j⟩ ++ [⟨d.lit, t.level d.var, d.derivedFrom⟩] := by
  conv_lhs => rw [trail, ← List.dropLast_append_getLast? d hlast, List.map_append]
  unfold trail
  congr 1
  refine List.map_congr_left fun d' hd' => ?_
  show (⟨d'.lit, t.map.level d'.var, d'.derivedFrom⟩ : Entry VariableId ClauseId) =
    ⟨d'.lit, (t.map.reset d.var).level d'.var, d'.derivedFrom⟩
  rw [DecisionMap.level_reset_ne _ (h.ne_last hlast d' hd')]

end Assigned

theorem WF.var_notMem {t : DecisionTracker} (h : t.WF) {d : Decision}
    (hd : t.assignedValue d.var = none) : ∀ d' ∈ t.stack, d'.var ≠ d.var := h.assigned.var_notMem hd

theorem push_trail {t : DecisionTracker} (h : t.WF) {d : Decision}
    (hd : t.assignedValue d.var = none) (level : Nat) :
    (t.push d level).trail = t.trail ++ [⟨d.lit, level, d.derivedFrom⟩] := h.assigned.push_trail hd level

/-- Appending an entry at a level that is not below the trail keeps the tracker well formed. -/
theorem WF.push {t : DecisionTracker} (h : t.WF) {d : Decision}
    (hd : t.assignedValue d.var = none) {level : Nat} (hpos : 1 ≤ level)
    (hle : ∀ e ∈ t.trail, e.level ≤ level) : (t.push d level).WF where
  nodup := (h.assigned.push hd level).nodup
  value_iff := (h.assigned.push hd level).value_iff
  sorted := by rw [push_trail h hd]; exact h.sorted.snoc hle
  pos := by
    rw [push_trail h hd]
    intro e he
    rcases List.mem_append.mp he with he | he
    · exact h.pos e he
    · obtain rfl := List.mem_singleton.mp he
      exact hpos
  propagate_le := by simpa using Nat.le_succ_of_le h.propagate_le
  floor_le := by simpa using Nat.le_succ_of_le h.floor_le

/-! ## Popping a suffix -/

/-- `t'` is `t` after popping some entries; if any were popped the rest counts as propagated. -/
structure Rewound (t t' : DecisionTracker) : Prop where
  wf : t'.WF
  trail : t'.trail <+: t.trail
  propagate : t' = t ∨ t'.propagateIndex = t'.stack.length
  floor : t'.syncFloor = min t.syncFloor t'.stack.length

theorem Rewound.refl {t : DecisionTracker} (h : t.WF) : Rewound t t :=
  ⟨h, List.prefix_refl _, .inl rfl, (Nat.min_eq_left h.floor_le).symm⟩

theorem Rewound.trans {t t' t'' : DecisionTracker} (h : Rewound t t') (h' : Rewound t' t'') :
    Rewound t t'' where
  wf := h'.wf
  trail := h'.trail.trans h.trail
  propagate := by
    rcases h'.propagate with rfl | hp
    · exact h.propagate
    · exact .inr hp
  floor := by
    have hlen : t''.stack.length ≤ t'.stack.length := by simpa using h'.trail.length_le
    rw [h'.floor, h.floor]
    omega

theorem clear_rewound {t : DecisionTracker} : Rewound t t.clear :=
  ⟨WF.empty, by simp [clear, trail], .inr rfl, by simp [clear]⟩

/-- What `undoLast` can do. -/
theorem undoLast_cases {t t' : DecisionTracker} {d : Decision} {level : Nat}
    (hu : t.undoLast = some (d, level, t')) :
    t.stack.getLast? = some d ∧ ∃ top, t.stack.dropLast.getLast? = some top ∧
      level = (t.map.reset d.var).level top.var ∧
      t' = ⟨t.map.reset d.var, t.stack.dropLast, t.stack.dropLast.length,
        min t.syncFloor t.stack.dropLast.length⟩ := by
  unfold undoLast at hu
  split at hu
  · cases hu
  · next decision hlast =>
      dsimp only at hu
      split at hu
      · cases hu
      · next top htop =>
          rw [Option.some.injEq, Prod.mk.injEq, Prod.mk.injEq] at hu
          obtain ⟨rfl, rfl, rfl⟩ := hu
          exact ⟨hlast, top, htop, rfl, rfl⟩

/-- `undoLast` pops one entry. -/
theorem undoLast_spec {t t' : DecisionTracker} {d : Decision} {level : Nat} (h : t.WF)
    (hu : t.undoLast = some (d, level, t')) :
    t.trail = t'.trail ++ [⟨d.lit, t.level d.var, d.derivedFrom⟩] ∧ Rewound t t' ∧
      t'.propagateIndex = t'.stack.length ∧
      ∃ top, t'.trail.getLast? = some top ∧ top.level = level := by
  obtain ⟨hlast, top, htop, rfl, rfl⟩ := undoLast_cases hu
  have htrail := h.assigned.pop_trail hlast t.stack.dropLast.length (min t.syncFloor t.stack.dropLast.length)
  have hpop := h.assigned.pop hlast t.stack.dropLast.length (min t.syncFloor t.stack.dropLast.length)
  generalize ht' : (⟨t.map.reset d.var, t.stack.dropLast, t.stack.dropLast.length,
    min t.syncFloor t.stack.dropLast.length⟩ : DecisionTracker) = t' at htrail hpop ⊢
  have hpre : t'.trail <+: t.trail := ⟨_, htrail.symm⟩
  refine ⟨htrail, ⟨?_, hpre, .inr (by subst ht'; rfl), by subst ht'; rfl⟩, by subst ht'; rfl, ?_⟩
  · refine ⟨hpop.nodup, hpop.value_iff, h.sorted.of_prefix hpre, fun e he => h.pos e (hpre.subset he), ?_, ?_⟩
    · subst ht'
      exact le_rfl
    · subst ht'
      exact Nat.min_le_right _ _
  · subst ht'
    refine ⟨⟨top.lit, (t.map.reset d.var).level top.var, top.derivedFrom⟩, ?_, rfl⟩
    simp only [trail, List.getLast?_map, htop, Option.map_some, DecisionTracker.level]

/-- Two different entries need a trail of length two. -/
theorem one_lt_length {t : DecisionTracker} {e e' : Entry VariableId ClauseId} (he : e ∈ t.trail)
    (he' : e' ∈ t.trail) (hne : e ≠ e') : 1 < t.stack.length := by
  rw [← trail_length]
  obtain ⟨i, hi, rfl⟩ := List.mem_iff_getElem.mp he
  obtain ⟨j, hj, rfl⟩ := List.mem_iff_getElem.mp he'
  by_contra hle
  obtain rfl : i = j := by omega
  exact hne rfl

/-- `undoLast` succeeds when an entry is left. -/
theorem undoLast_total {t : DecisionTracker} (h : 1 < t.stack.length) : ∃ r, t.undoLast = some r := by
  unfold undoLast
  cases hlast : t.stack.getLast? with
  | none =>
      rw [List.getLast?_eq_none_iff.mp hlast] at h
      cases h
  | some d =>
      dsimp only
      cases htop : t.stack.dropLast.getLast? with
      | none =>
          have hlen := congrArg List.length (List.getLast?_eq_none_iff.mp htop)
          rw [List.length_dropLast, List.length_nil] at hlen
          omega
      | some top => exact ⟨_, rfl⟩

theorem undoUntilLoop_spec {level : Nat} (fuel : Nat) {t t' : DecisionTracker} (h : t.WF)
    (hfuel : t.stack.length ≤ fuel) (hu : undoUntilLoop level fuel t = some t') :
    Rewound t t' ∧ (∀ e ∈ t'.trail, e.level ≤ level) ∧
      ∀ e ∈ t.trail, e.level ≤ level → e ∈ t'.trail := by
  induction fuel generalizing t with
  | zero =>
      simp only [undoUntilLoop, Option.some.injEq] at hu
      subst hu
      have hnil : t.trail = [] := by
        rw [List.eq_nil_iff_length_eq_zero, trail_length]; omega
      exact ⟨.refl h, by simp [hnil], fun e he _ => he⟩
  | succ fuel ih =>
      simp only [undoUntilLoop] at hu
      split at hu
      · next hlast =>
          obtain rfl : t = t' := by simpa using hu
          have hnil : t.trail = [] := by
            rw [trail, List.getLast?_eq_none_iff.mp hlast]; rfl
          exact ⟨.refl h, by simp [hnil], fun e he _ => he⟩
      · next d hlast =>
          split at hu
          · next hle =>
              obtain rfl : t = t' := by simpa using hu
              refine ⟨.refl h, fun e he => ?_, fun e he _ => he⟩
              -- the last entry bounds the others
              have hstack := (List.dropLast_append_getLast? d hlast).symm
              have htrail : t.trail = (t.stack.dropLast.map fun d =>
                  (⟨d.lit, t.level d.var, d.derivedFrom⟩ : Entry VariableId ClauseId)) ++
                    [⟨d.lit, t.level d.var, d.derivedFrom⟩] := by
                conv_lhs => rw [trail, hstack]
                simp
              have hs := h.sorted
              rw [htrail] at he hs
              rcases List.mem_append.mp he with he | he
              · exact ((List.pairwise_append.mp hs).2.2 e he _ (List.mem_singleton.mpr rfl)).trans hle
              · rw [List.mem_singleton.mp he]
                exact hle
          · next hgt =>
              split at hu
              · cases hu
              · next d' lv t₁ hundo =>
                  obtain ⟨htrail, hrw, -, -⟩ := undoLast_spec h hundo
                  have hlen : t₁.stack.length ≤ fuel := by
                    have := congrArg List.length htrail
                    simp only [trail_length, List.length_append, List.length_singleton] at this
                    omega
                  obtain ⟨hr, hle, hkeep⟩ := ih hrw.wf hlen hu
                  refine ⟨hrw.trans hr, hle, fun e he hel => ?_⟩
                  rw [htrail] at he
                  rcases List.mem_append.mp he with he | he
                  · exact hkeep e he hel
                  · -- the popped entry is above the level
                    rw [List.mem_singleton.mp he] at hel
                    obtain rfl : d = d' := Option.some.inj (hlast.symm.trans (undoLast_cases hundo).1)
                    exact absurd hel hgt

/-- An entry that may stay keeps the loop from emptying the trail. -/
theorem undoUntilLoop_total {level : Nat} (fuel : Nat) {t : DecisionTracker} (h : t.WF)
    {low : Entry VariableId ClauseId} (hlow : low ∈ t.trail) (hle : low.level ≤ level) :
    ∃ t', undoUntilLoop level fuel t = some t' := by
  induction fuel generalizing t with
  | zero => exact ⟨t, rfl⟩
  | succ fuel ih =>
      unfold undoUntilLoop
      cases hlast : t.stack.getLast? with
      | none => exact ⟨t, rfl⟩
      | some d =>
          dsimp only
          by_cases hd : t.level d.var ≤ level
          · exact ⟨t, if_pos hd⟩
          · rw [if_neg hd]
            have hmem : (⟨d.lit, t.level d.var, d.derivedFrom⟩ : Entry VariableId ClauseId) ∈ t.trail :=
              mem_trail.mpr ⟨d, List.mem_of_getLast? hlast, rfl⟩
            have hlen : 1 < t.stack.length := one_lt_length hmem hlow fun heq =>
              hd ((congrArg Entry.level heq).trans_le hle)
            obtain ⟨⟨d', level', t₁⟩, hundo⟩ := undoLast_total hlen
            rw [hundo]
            obtain ⟨htrail, hrw, -, -⟩ := undoLast_spec h hundo
            refine ih hrw.wf ?_
            rw [htrail] at hlow
            refine (List.mem_append.mp hlow).resolve_right fun hlow => ?_
            -- the popped entry is above the level
            obtain rfl : d = d' := Option.some.inj (hlast.symm.trans (undoLast_cases hundo).1)
            rw [List.mem_singleton.mp hlow] at hle
            exact hd hle

theorem undoUntil_total {t : DecisionTracker} {level : Nat} (h : t.WF)
    {low : Entry VariableId ClauseId} (hlow : low ∈ t.trail) (hle : low.level ≤ level) :
    ∃ t', t.undoUntil level = some t' := by
  unfold undoUntil
  split
  · exact ⟨_, rfl⟩
  · exact undoUntilLoop_total _ h hlow hle

/-- **`undoUntil` keeps exactly the entries up to its level.** -/
theorem undoUntil_spec {t t' : DecisionTracker} {level : Nat} (h : t.WF)
    (hu : t.undoUntil level = some t') :
    Rewound t t' ∧ (∀ e ∈ t'.trail, e.level ≤ level) ∧
      ∀ e ∈ t.trail, e.level ≤ level → e ∈ t'.trail := by
  simp only [undoUntil] at hu
  split at hu
  · next h0 =>
      obtain rfl : t.clear = t' := by simpa using hu
      refine ⟨clear_rewound, by simp [clear, trail], fun e he hle => ?_⟩
      have := h.pos e he
      omega
  · exact undoUntilLoop_spec _ h le_rfl hu

/-- `nextUnpropagated` takes the entry at the propagation index. -/
theorem nextUnpropagated_spec {t t' : DecisionTracker} {d : Decision}
    (hn : t.nextUnpropagated = some (d, t')) :
    t.stack[t.propagateIndex]? = some d ∧ t' = { t with propagateIndex := t.propagateIndex + 1 } := by
  simp only [nextUnpropagated, Option.map_eq_some_iff] at hn
  obtain ⟨d', hd', heq⟩ := hn
  simp only [Prod.mk.injEq] at heq
  exact ⟨heq.1 ▸ hd', heq.2.symm⟩

theorem nextUnpropagated_eq_none {t : DecisionTracker} (h : t.WF)
    (hn : t.nextUnpropagated = none) : t.propagateIndex = t.stack.length := by
  simp only [nextUnpropagated, Option.map_eq_none_iff, List.getElem?_eq_none_iff] at hn
  exact Nat.le_antisymm h.propagate_le hn

/-- Moving the propagation index or the sync floor within bounds keeps the tracker well formed. -/
theorem WF.with_index {t : DecisionTracker} (h : t.WF) {i j : Nat} (hi : i ≤ t.stack.length)
    (hj : j ≤ t.stack.length) : WF { t with propagateIndex := i, syncFloor := j } :=
  ⟨h.nodup, h.value_iff, h.sorted, h.pos, hi, hj⟩

end DecisionTracker

end Resolvo
