import Resolvo.Correctness.GraphBuilder
import Resolvo.Correctness.Variables
import Resolvo.Lib.Fold

/-!
# `Correctness.ConflictTables` — which clauses the edges are drawn from

A shared constraint and a shared requirement are spread over several clauses that have an auxiliary variable in
common. Where the conflict has both sides of each, the tables list exactly the solvables of these clauses, and
nothing is recovered from the trail.
-/

set_option linter.unusedSectionVars false

namespace Resolvo

variable {N S F : Type} [DecidableEq N] [DecidableEq S]

/-- The invariant rule of `foldlM` for steps that do not fail. -/
theorem foldlM_total {α β : Type} {f : β → α → Option β} (Inv : List α → β → Prop) (l : List α) {b : β}
    (h : Inv [] b)
    (hstep : ∀ front a back, l = front ++ a :: back → ∀ b, Inv front b → ∃ b', f b a = some b' ∧ Inv (front ++ [a]) b') :
    ∃ b', l.foldlM f b = some b' ∧ Inv l b' := by
  suffices hrest : ∀ front back, l = front ++ back → ∀ b, Inv front b →
      ∃ b', back.foldlM f b = some b' ∧ Inv l b' from hrest [] l rfl b h
  intro front back
  induction back generalizing front with
  | nil =>
      intro hl b hb
      rw [List.append_nil] at hl
      exact ⟨b, rfl, hl ▸ hb⟩
  | cons a back ih =>
      intro hl b hb
      obtain ⟨b', hb', hinv⟩ := hstep front a back hl b hb
      obtain ⟨b'', hb'', hinv'⟩ := ih (front ++ [a]) (by rw [hl, List.append_assoc]; rfl) b' hinv
      refine ⟨b'', ?_, hinv'⟩
      rw [List.foldlM_cons, hb']
      exact hb''

namespace Conflict

variable {P : DependencyProvider N S} {s : SolverState N S F} {clauses front : List ClauseId} {kind : Clause N}
  {id : ClauseId} {aux v : VariableId} {p : SolvableIdOrRoot S} {t : ConflictTables S}

/-- One of the clauses is of this kind. -/
def Reports (s : SolverState N S F) (clauses : List ClauseId) (kind : Clause N) : Prop :=
  ∃ id ∈ clauses, s.clauses[id]? = some kind

theorem reports_append (hk : s.clauses[id]? = some kind) {kind' : Clause N} :
    Reports s (front ++ [id]) kind' ↔ Reports s front kind' ∨ kind' = kind := by
  unfold Reports
  constructor
  · rintro ⟨i, hi, hki⟩
    rcases List.mem_append.mp hi with hi | hi
    · exact .inl ⟨i, hi, hki⟩
    · rw [List.mem_singleton.mp hi, hk] at hki
      exact .inr (Option.some.inj hki).symm
  · rintro (⟨i, hi, hki⟩ | rfl)
    · exact ⟨i, List.mem_append_left _ hi, hki⟩
    · exact ⟨id, List.mem_append_right _ (List.mem_singleton_self id), hk⟩

/-! ## The sides of an auxiliary variable -/

/-- The auxiliary variable and the parent of a shared constraint. -/
def parentSide : Clause N → Option (VariableId × VariableId)
  | .constrainsParent parent aux _ => some (aux, parent)
  | _ => none

def candidateSide : Clause N → Option (VariableId × VariableId)
  | .constrainsExcluded candidate aux _ => some (aux, candidate)
  | _ => none

/-- The gate and a requirer of a shared requirement. -/
def requirerSide (s : SolverState N S F) : Clause N → Option (VariableId × VariableId)
  | .anyOf selected parent => if isRequiresGate s selected then some (selected, parent) else none
  | _ => none

/-- The table lists the solvables on one side of each auxiliary variable, and has no empty list. -/
structure Lists (s : SolverState N S F) (clauses : List ClauseId)
    (side : Clause N → Option (VariableId × VariableId))
    (m : IndexMap VariableId (List (SolvableIdOrRoot S))) : Prop where
  mem : ∀ aux p, p ∈ m.getD aux [] ↔
    ∃ kind v, Reports s clauses kind ∧ side kind = some (aux, v) ∧ s.variableMap.asSolvableOrRoot v = some p
  nonempty : ∀ aux l, m.get? aux = some l → l ≠ []

section Lists

variable {side : Clause N → Option (VariableId × VariableId)} {m : IndexMap VariableId (List (SolvableIdOrRoot S))}

theorem Lists.init : Lists s [] side {} where
  mem := by
    intro aux p
    constructor
    · intro h
      cases h
    · rintro ⟨kind, v, ⟨i, hi, -⟩, -⟩
      cases hi
  nonempty := fun _ _ h => by cases h

/-- A clause without the side is passed over. -/
theorem Lists.skip (h : Lists s front side m) (hk : s.clauses[id]? = some kind)
    (hside : ∀ aux v p, side kind = some (aux, v) → s.variableMap.asSolvableOrRoot v ≠ some p) :
    Lists s (front ++ [id]) side m where
  mem := by
    intro aux p
    rw [h.mem]
    constructor
    · rintro ⟨kind', v, hr, hs, hp⟩
      exact ⟨kind', v, (reports_append hk).mpr (.inl hr), hs, hp⟩
    · rintro ⟨kind', v, hr, hs, hp⟩
      rcases (reports_append hk).mp hr with hr | rfl
      · exact ⟨kind', v, hr, hs, hp⟩
      · exact absurd hp (hside aux v p hs)
  nonempty := h.nonempty

/-- A solvable is entered. -/
theorem Lists.push (h : Lists s front side m) (hk : s.clauses[id]? = some kind) (hside : side kind = some (aux, v))
    (hp : s.variableMap.asSolvableOrRoot v = some p) :
    Lists s (front ++ [id]) side (m.insert aux (m.getD aux [] ++ [p])) where
  mem := by
    intro aux' p'
    rw [IndexMap.getD_insert]
    have hnew : (∃ kind' v', Reports s (front ++ [id]) kind' ∧ side kind' = some (aux', v') ∧
        s.variableMap.asSolvableOrRoot v' = some p') ↔ p' ∈ m.getD aux' [] ∨ (aux = aux' ∧ p' = p) := by
      rw [h.mem]
      constructor
      · rintro ⟨kind', v', hr, hs, hp'⟩
        rcases (reports_append hk).mp hr with hr | rfl
        · exact .inl ⟨kind', v', hr, hs, hp'⟩
        · obtain ⟨rfl, rfl⟩ := Prod.mk.inj (Option.some.inj (hside.symm.trans hs))
          exact .inr ⟨rfl, Option.some.inj (hp'.symm.trans hp)⟩
      · rintro (⟨kind', v', hr, hs, hp'⟩ | ⟨rfl, rfl⟩)
        · exact ⟨kind', v', (reports_append hk).mpr (.inl hr), hs, hp'⟩
        · exact ⟨kind, v, (reports_append hk).mpr (.inr rfl), hside, hp⟩
    rw [hnew]
    by_cases haux : aux = aux'
    · subst haux
      simp
    · simp [haux]
  nonempty := by
    intro aux' l hl
    rw [IndexMap.get?_insert] at hl
    split at hl
    · rw [← Option.some.inj hl]
      simp
    · exact h.nonempty aux' l hl

/-- A key has a solvable. -/
theorem Lists.exists_of_get? (h : Lists s clauses side m) {l : List (SolvableIdOrRoot S)} (hl : m.get? aux = some l) :
    ∃ kind v p, Reports s clauses kind ∧ side kind = some (aux, v) ∧ s.variableMap.asSolvableOrRoot v = some p := by
  obtain ⟨p, hp⟩ := List.exists_mem_of_ne_nil l (h.nonempty aux l hl)
  have hmem : p ∈ m.getD aux [] := by
    rw [IndexMap.getD, hl]
    exact hp
  obtain ⟨kind, v, hr⟩ := (h.mem aux p).mp hmem
  exact ⟨kind, v, p, hr⟩

theorem Lists.isSome (h : Lists s clauses side m) (hr : Reports s clauses kind) (hside : side kind = some (aux, v))
    (hp : s.variableMap.asSolvableOrRoot v = some p) : (m.get? aux).isSome = true := by
  have hmem := (h.mem aux p).mpr ⟨kind, v, hr, hside, hp⟩
  obtain ⟨l, -, -, hl⟩ := IndexMap.mem_getD_nil hmem
  rw [hl]
  rfl

end Lists

/-! ## Collecting -/

/-- The solvables of a clause can be read off its variables. -/
def Legible (s : SolverState N S F) : Clause N → Prop
  | .installRoot | .anyOf .. | .requires .. => True
  | .learnt _ => False
  | .excluded v _ => ∃ x, s.IsVar (.solvable x) v
  | .lock a b => (∃ x, s.IsVar (.solvable x) a) ∧ ∃ y, s.IsVar (.solvable y) b
  | .forbidMultipleInstances a b name =>
      (∃ x, s.IsVar (.solvable x) a) ∧ s.variableMap.origin? b.var = some (.forbidMultiple name)
  | .constrains a b _ => (∃ p, s.IsVar p a) ∧ ∃ x, s.IsVar (.solvable x) b
  | .constrainsParent a _ _ => ∃ p, s.IsVar p a
  | .constrainsExcluded a _ _ => ∃ x, s.IsVar (.solvable x) a

/-- The conflict has both sides of a shared constraint, and a requirer of each gate. -/
structure Paired (s : SolverState N S F) (clauses : List ClauseId) : Prop where
  candidates : ∀ parent aux vs, Reports s clauses (.constrainsParent parent aux vs) →
    ∃ candidate vs', Reports s clauses (.constrainsExcluded candidate aux vs')
  parents : ∀ candidate aux vs, Reports s clauses (.constrainsExcluded candidate aux vs) →
    ∃ parent vs', Reports s clauses (.constrainsParent parent aux vs')
  requirers : ∀ gate condition r, Reports s clauses (.requires gate condition r) → isRequiresGate s gate = true →
    ∃ parent p, Reports s clauses (.anyOf gate parent) ∧ s.IsVar p parent

/-- What the tables are. -/
structure Collected (s : SolverState N S F) (clauses : List ClauseId) (t : ConflictTables S) : Prop where
  parents : Lists s clauses parentSide t.constrainsAuxParents
  candidates : Lists s clauses candidateSide t.constrainsAuxCandidates
  requirers : Lists s clauses (requirerSide s) t.requiresGateParents

theorem collectConstrains_collected (hwf : s.variableMap.WF)
    (hlegible : ∀ id ∈ clauses, ∃ kind, s.clauses[id]? = some kind ∧ Legible s kind) :
    ∃ t, clauses.foldlM (collectConstrains s) {} = some t ∧ Lists s clauses parentSide t.constrainsAuxParents ∧
      Lists s clauses candidateSide t.constrainsAuxCandidates ∧ t.requiresGateParents = {} := by
  refine foldlM_total (fun front (t : ConflictTables S) => Lists s front parentSide t.constrainsAuxParents ∧
    Lists s front candidateSide t.constrainsAuxCandidates ∧ t.requiresGateParents = {}) clauses
    ⟨.init, .init, rfl⟩ ?_
  rintro front id back rfl t ⟨hparents, hcandidates, hrequirers⟩
  obtain ⟨kind, hk, hl⟩ := hlegible id (List.mem_append_right _ List.mem_cons_self)
  unfold collectConstrains
  rw [hk]
  -- every other clause is passed over
  have hskip : parentSide kind = none → candidateSide kind = none →
      Lists s (front ++ [id]) parentSide t.constrainsAuxParents ∧
        Lists s (front ++ [id]) candidateSide t.constrainsAuxCandidates ∧ t.requiresGateParents = {} := by
    intro hparent hcandidate
    refine ⟨hparents.skip hk fun aux v p hs => ?_, hcandidates.skip hk fun aux v p hs => ?_, hrequirers⟩
    · rw [hparent] at hs
      cases hs
    · rw [hcandidate] at hs
      cases hs
  cases kind with
  | constrainsParent parent aux vs =>
      obtain ⟨p, hp⟩ := hl
      have hp' := hwf.asSolvableOrRoot_iff.mpr hp
      dsimp only
      rw [hp', Option.map_some]
      refine ⟨_, rfl, hparents.push hk rfl hp', hcandidates.skip hk fun aux v p hs => ?_, hrequirers⟩
      cases hs
  | constrainsExcluded candidate aux vs =>
      obtain ⟨x, hx⟩ := hl
      have hx' := hwf.asSolvableOrRoot_iff.mpr hx
      dsimp only
      rw [hx', Option.map_some]
      refine ⟨_, rfl, hparents.skip hk fun aux v p hs => ?_, hcandidates.push hk rfl hx', hrequirers⟩
      cases hs
  | installRoot => exact ⟨t, rfl, hskip rfl rfl⟩
  | requires => exact ⟨t, rfl, hskip rfl rfl⟩
  | forbidMultipleInstances => exact ⟨t, rfl, hskip rfl rfl⟩
  | constrains => exact ⟨t, rfl, hskip rfl rfl⟩
  | lock => exact ⟨t, rfl, hskip rfl rfl⟩
  | learnt => exact ⟨t, rfl, hskip rfl rfl⟩
  | excluded => exact ⟨t, rfl, hskip rfl rfl⟩
  | anyOf => exact ⟨t, rfl, hskip rfl rfl⟩

/-- **Nothing is recovered** where both sides are there. -/
theorem foldlM_of_noop {f : ConflictTables S → VariableId → Option (ConflictTables S)} (l : List VariableId)
    (h : ∀ aux ∈ l, f t aux = some t) : l.foldlM f t = some t := by
  obtain ⟨t', ht', rfl⟩ := foldlM_total (f := f) (fun _ t' => t' = t) l rfl (by
    rintro front aux back rfl t' rfl
    exact ⟨t', h aux (List.mem_append_right _ List.mem_cons_self), rfl⟩)
  exact ht'

theorem collectRequirers_step (h : Lists s front (requirerSide s) t.requiresGateParents)
    (hk : s.clauses[id]? = some kind) :
    Lists s (front ++ [id]) (requirerSide s) (collectRequirers s t id).requiresGateParents ∧
      (collectRequirers s t id).constrainsAuxParents = t.constrainsAuxParents ∧
      (collectRequirers s t id).constrainsAuxCandidates = t.constrainsAuxCandidates := by
  have hskip (hside : ∀ gate v p, requirerSide s kind = some (gate, v) → s.variableMap.asSolvableOrRoot v ≠ some p) :
      Lists s (front ++ [id]) (requirerSide s) t.requiresGateParents ∧
        t.constrainsAuxParents = t.constrainsAuxParents ∧ t.constrainsAuxCandidates = t.constrainsAuxCandidates :=
    ⟨h.skip hk hside, rfl, rfl⟩
  unfold collectRequirers
  rw [hk]
  cases kind with
  | anyOf selected parent =>
      dsimp only
      cases hgate : isRequiresGate s selected with
      | false =>
          refine hskip fun gate v p hs => ?_
          simp [requirerSide, hgate] at hs
      | true =>
          have hside : requirerSide s (.anyOf selected parent) = some (selected, parent) := by
            simp [requirerSide, hgate]
          rw [if_pos rfl]
          cases hp : s.variableMap.asSolvableOrRoot parent with
          | some p => exact ⟨h.push hk hside hp, rfl, rfl⟩
          | none =>
              refine hskip fun gate v p hs hv => ?_
              rw [hside] at hs
              obtain ⟨-, rfl⟩ := Prod.mk.inj (Option.some.inj hs)
              rw [hp] at hv
              cases hv
  | installRoot => exact hskip fun gate v p hs => by cases hs
  | requires => exact hskip fun gate v p hs => by cases hs
  | forbidMultipleInstances => exact hskip fun gate v p hs => by cases hs
  | constrains => exact hskip fun gate v p hs => by cases hs
  | constrainsExcluded => exact hskip fun gate v p hs => by cases hs
  | constrainsParent => exact hskip fun gate v p hs => by cases hs
  | lock => exact hskip fun gate v p hs => by cases hs
  | learnt => exact hskip fun gate v p hs => by cases hs
  | excluded => exact hskip fun gate v p hs => by cases hs

theorem collectRequirers_collected (hempty : t.requiresGateParents = {})
    (hlegible : ∀ id ∈ clauses, ∃ kind, s.clauses[id]? = some kind ∧ Legible s kind) :
    Lists s clauses (requirerSide s) (clauses.foldl (collectRequirers s) t).requiresGateParents ∧
      (clauses.foldl (collectRequirers s) t).constrainsAuxParents = t.constrainsAuxParents ∧
      (clauses.foldl (collectRequirers s) t).constrainsAuxCandidates = t.constrainsAuxCandidates := by
  suffices hrest : ∀ front back, clauses = front ++ back → ∀ t' : ConflictTables S,
      Lists s front (requirerSide s) t'.requiresGateParents →
      Lists s clauses (requirerSide s) (back.foldl (collectRequirers s) t').requiresGateParents ∧
      (back.foldl (collectRequirers s) t').constrainsAuxParents = t'.constrainsAuxParents ∧
      (back.foldl (collectRequirers s) t').constrainsAuxCandidates = t'.constrainsAuxCandidates from
    hrest [] clauses rfl t (hempty ▸ .init)
  intro front back
  induction back generalizing front with
  | nil =>
      intro hc t' h
      rw [List.append_nil] at hc
      exact ⟨hc ▸ h, rfl, rfl⟩
  | cons id back ih =>
      intro hc t' h
      obtain ⟨kind, hk, -⟩ := hlegible id (hc ▸ List.mem_append_right _ List.mem_cons_self)
      obtain ⟨h₁, h₂, h₃⟩ := collectRequirers_step h hk
      obtain ⟨h₁', h₂', h₃'⟩ := ih (front ++ [id]) (by rw [hc, List.append_assoc]; rfl) _ h₁
      exact ⟨h₁', h₂'.trans h₂, h₃'.trans h₃⟩

/-- **The tables list what is in the conflict**, if it has both sides of everything. -/
theorem collectTables_collected (hwf : s.variableMap.WF)
    (hlegible : ∀ id ∈ clauses, ∃ kind, s.clauses[id]? = some kind ∧ Legible s kind) (hpaired : Paired s clauses) :
    ∃ t, collectTables s clauses = some t ∧ Collected s clauses t := by
  have hlegible' : ∀ {kind}, Reports s clauses kind → Legible s kind := by
    rintro kind ⟨id, hid, hk⟩
    obtain ⟨kind', hk', hl⟩ := hlegible id hid
    rw [Option.some.inj (hk.symm.trans hk')]
    exact hl
  obtain ⟨t, ht, hparents, hcandidates, hempty⟩ := collectConstrains_collected hwf hlegible
  have hkeys {m : IndexMap VariableId (List (SolvableIdOrRoot S))} {aux : VariableId} (h : aux ∈ m.keys) :
      ∃ l, m.get? aux = some l :=
    Option.ne_none_iff_exists'.mp fun hnone => IndexMap.lookup_eq_none_iff.mp hnone h
  -- both sides of every shared constraint are there
  have hcandidates' : t.constrainsAuxParents.keys.foldlM (recoverCandidates s) t = some t := by
    refine foldlM_of_noop _ fun aux haux => ?_
    obtain ⟨l, hl⟩ := hkeys haux
    obtain ⟨kind, v, p, hr, hs, -⟩ := hparents.exists_of_get? hl
    cases kind with
    | constrainsParent parent aux' vs =>
        obtain ⟨rfl, rfl⟩ := Prod.mk.inj (Option.some.inj hs)
        obtain ⟨candidate, vs', hr'⟩ := hpaired.candidates _ _ _ hr
        obtain ⟨x, hx⟩ := hlegible' hr'
        rw [recoverCandidates, if_pos (hcandidates.isSome hr' rfl (hwf.asSolvableOrRoot_iff.mpr hx))]
    | _ => cases hs
  have hparents' : t.constrainsAuxCandidates.keys.foldlM (recoverParents s) t = some t := by
    refine foldlM_of_noop _ fun aux haux => ?_
    obtain ⟨l, hl⟩ := hkeys haux
    obtain ⟨kind, v, p, hr, hs, -⟩ := hcandidates.exists_of_get? hl
    cases kind with
    | constrainsExcluded candidate aux' vs =>
        obtain ⟨rfl, rfl⟩ := Prod.mk.inj (Option.some.inj hs)
        obtain ⟨parent, vs', hr'⟩ := hpaired.parents _ _ _ hr
        obtain ⟨p, hp⟩ := hlegible' hr'
        rw [recoverParents, if_pos (hparents.isSome hr' rfl (hwf.asSolvableOrRoot_iff.mpr hp))]
    | _ => cases hs
  obtain ⟨hrequirers, hsame, hsame'⟩ := collectRequirers_collected hempty hlegible
  -- so is a requirer of every gate
  have hgates : clauses.foldl (recoverRequirer s) (clauses.foldl (collectRequirers s) t) =
      clauses.foldl (collectRequirers s) t := by
    refine List.foldl_rule (fun t' => t' = clauses.foldl (collectRequirers s) t) clauses rfl ?_
    rintro t' id hid rfl
    obtain ⟨kind, hk, -⟩ := hlegible id hid
    unfold recoverRequirer
    rw [hk]
    cases kind with
    | requires gate condition r =>
        dsimp only
        refine if_neg ?_
        rintro ⟨hgate, hnone⟩
        obtain ⟨parent, p, hr, hp⟩ := hpaired.requirers gate condition r ⟨id, hid, hk⟩ hgate
        have hside : requirerSide s (.anyOf gate parent) = some (gate, parent) := by simp [requirerSide, hgate]
        have hsome := hrequirers.isSome hr hside (hwf.asSolvableOrRoot_iff.mpr hp)
        rw [Option.isNone_iff_eq_none.mp hnone] at hsome
        cases hsome
    | _ => rfl
  refine ⟨clauses.foldl (collectRequirers s) t, ?_, hsame ▸ hparents, hsame' ▸ hcandidates, hrequirers⟩
  unfold collectTables
  rw [ht, Option.bind_some, hcandidates', Option.bind_some, hparents', Option.map_some, hgates]

end Conflict

end Resolvo
