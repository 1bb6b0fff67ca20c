import Resolvo.Correctness.ConflictTables

/-!
# `Correctness.ConflictDrawing` — the edges that are drawn for a conflict

Each clause draws the edges between its solvables, and the clauses of the at-most-one encoding of a package link
their solvables one after another. Apart from these links the edges do not depend on the order of the clauses.
-/

set_option linter.unusedSectionVars false

namespace Resolvo

variable {N S F : Type} [DecidableEq N] [DecidableEq S]

namespace Conflict

open GraphBuilder

section Drawing

variable (P : DependencyProvider N S) (s : SolverState N S F) (clauses : List ClauseId)

/-- `p` has the requirement of a clause with this variable: it is its variable, or the gate is shared with `p`. -/
def Requirer (p : SolvableIdOrRoot S) (v : VariableId) : Prop :=
  s.IsVar p v ∨ (isRequiresGate s v = true ∧ ∃ parent, Reports s clauses (.anyOf v parent) ∧ s.IsVar p parent)

/-- **The edges of a clause**, but for those between the candidates of a package. -/
def Drawn : Clause N → ConflictNode S → ConflictEdge S → ConflictNode S → Prop
  | .excluded v reason, u, w, u' =>
      ∃ x, s.IsVar (.solvable x) v ∧ u = .solvable x ∧ w = .conflict .excluded ∧ u' = .excluded reason
  | .requires parent _ r, u, w, u' =>
      ∃ p, Requirer s clauses p parent ∧ u = .fromSolvableOrRoot p ∧ w = .requires r ∧
        (candidatesOf P r = [] ∧ u' = .unresolvedDependency ∨ ∃ x ∈ candidatesOf P r, u' = .solvable x)
  | .lock locked other, u, w, u' =>
      ∃ x y, s.IsVar (.solvable x) locked ∧ s.IsVar (.solvable y) other ∧ u = .root ∧
        w = .conflict (.locked x) ∧ u' = .solvable y
  | .constrains parent forbidden vs, u, w, u' =>
      ∃ p x, s.IsVar p parent ∧ s.IsVar (.solvable x) forbidden ∧ u = .fromSolvableOrRoot p ∧
        w = .conflict (.constrains vs) ∧ u' = .solvable x
  | .constrainsParent parent aux vs, u, w, u' =>
      ∃ p, s.IsVar p parent ∧ u = .fromSolvableOrRoot p ∧ w = .conflict (.constrains vs) ∧
        ∃ candidate vs' x, Reports s clauses (.constrainsExcluded candidate aux vs') ∧
          s.IsVar (.solvable x) candidate ∧ u' = .solvable x
  | .constrainsExcluded candidate aux vs, u, w, u' =>
      ∃ x, s.IsVar (.solvable x) candidate ∧ u' = .solvable x ∧ w = .conflict (.constrains vs) ∧
        ∃ parent vs' p, Reports s clauses (.constrainsParent parent aux vs') ∧ s.IsVar p parent ∧
          u = .fromSolvableOrRoot p
  | _, _, _, _ => False

/-- The solvable of a clause in the at-most-one encoding of a package. -/
def Forbidden (name : N) (u : ConflictNode S) : Prop :=
  ∃ a b x, Reports s clauses (.forbidMultipleInstances a b name) ∧ s.IsVar (.solvable x) a ∧ u = .solvable x

end Drawing

variable {P : DependencyProvider N S} {s : SolverState N S F} {clauses front : List ClauseId} {kind : Clause N}
  {id : ClauseId} {t : ConflictTables S} {b b' : GraphBuilder N S}

/-- The edges of a clause as a set. -/
def drawnEdges (P : DependencyProvider N S) (s : SolverState N S F) (clauses : List ClauseId) (kind : Clause N) :
    Set (ConflictNode S × ConflictEdge S × ConflictNode S) :=
  {e | Drawn P s clauses kind e.1 e.2.1 e.2.2}

theorem Collected.mem_requirers (hwf : s.variableMap.WF) (ht : Collected s clauses t) {v : VariableId}
    {p : SolvableIdOrRoot S} : p ∈ t.requiresGateParents.getD v [] ↔
      isRequiresGate s v = true ∧ ∃ parent, Reports s clauses (.anyOf v parent) ∧ s.IsVar p parent := by
  rw [ht.requirers.mem]
  constructor
  · rintro ⟨kind, parent, hr, hs, hp⟩
    cases kind with
    | anyOf selected other =>
        cases hgate : isRequiresGate s selected with
        | false => simp [requirerSide, hgate] at hs
        | true =>
            obtain ⟨rfl, rfl⟩ : selected = v ∧ other = parent := by simpa [requirerSide, hgate] using hs
            exact ⟨hgate, other, hr, hwf.asSolvableOrRoot_iff.mp hp⟩
    | _ => cases hs
  · rintro ⟨hgate, parent, hr, hp⟩
    exact ⟨_, parent, hr, by simp [requirerSide, hgate], hwf.asSolvableOrRoot_iff.mpr hp⟩

theorem Collected.mem_candidates (hwf : s.variableMap.WF) (ht : Collected s clauses t)
    (hlegible : ∀ kind, Reports s clauses kind → Legible s kind) {aux : VariableId} {q : SolvableIdOrRoot S} :
    q ∈ t.constrainsAuxCandidates.getD aux [] ↔ ∃ candidate vs x,
      Reports s clauses (.constrainsExcluded candidate aux vs) ∧ s.IsVar (.solvable x) candidate ∧ q = .solvable x := by
  rw [ht.candidates.mem]
  constructor
  · rintro ⟨kind, v, hr, hs, hq⟩
    cases kind with
    | constrainsExcluded candidate aux' vs =>
        obtain ⟨rfl, rfl⟩ := Prod.mk.inj (Option.some.inj hs)
        obtain ⟨x, hx⟩ := hlegible _ hr
        refine ⟨candidate, vs, x, hr, hx, ?_⟩
        exact hwf.varOf_inj (hwf.asSolvableOrRoot_iff.mp hq) hx
    | _ => cases hs
  · rintro ⟨candidate, vs, x, hr, hx, rfl⟩
    exact ⟨_, candidate, hr, rfl, hwf.asSolvableOrRoot_iff.mpr hx⟩

theorem Collected.mem_parents (hwf : s.variableMap.WF) (ht : Collected s clauses t) {aux : VariableId}
    {p : SolvableIdOrRoot S} : p ∈ t.constrainsAuxParents.getD aux [] ↔ ∃ parent vs,
      Reports s clauses (.constrainsParent parent aux vs) ∧ s.IsVar p parent := by
  rw [ht.parents.mem]
  constructor
  · rintro ⟨kind, v, hr, hs, hp⟩
    cases kind with
    | constrainsParent parent aux' vs =>
        obtain ⟨rfl, rfl⟩ := Prod.mk.inj (Option.some.inj hs)
        exact ⟨parent, vs, hr, hwf.asSolvableOrRoot_iff.mp hp⟩
    | _ => cases hs
  · rintro ⟨parent, vs, hr, hp⟩
    exact ⟨_, parent, hr, rfl, hwf.asSolvableOrRoot_iff.mpr hp⟩

/-- The requirers of a clause, as they are looked up. -/
theorem mem_requirersOf (hwf : s.variableMap.WF) (ht : Collected s clauses t) {v : VariableId}
    {p : SolvableIdOrRoot S} : p ∈ requirersOf s t v ↔ Requirer s clauses p v := by
  unfold Requirer requirersOf
  cases hv : s.variableMap.asSolvableOrRoot v with
  | some q =>
      have hgate : isRequiresGate s v = false := by
        unfold isRequiresGate
        unfold VariableMap.asSolvableOrRoot at hv
        cases ho : s.variableMap.origin? v with
        | none => rfl
        | some o =>
            rw [ho] at hv
            cases o <;> first | rfl | cases hv
      show p ∈ [q] ↔ _
      rw [List.mem_singleton, hgate]
      constructor
      · rintro rfl
        exact .inl (hwf.asSolvableOrRoot_iff.mp hv)
      · rintro (hp | ⟨h, -⟩)
        · exact hwf.varOf_inj hp (hwf.asSolvableOrRoot_iff.mp hv)
        · cases h
  | none =>
      show p ∈ t.requiresGateParents.getD v [] ↔ _
      rw [ht.mem_requirers hwf]
      refine ⟨.inr, ?_⟩
      rintro (hp | h)
      · rw [hwf.asSolvableOrRoot_iff.mpr hp] at hv
        cases hv
      · exact h

/-- **One clause draws its edges.** -/
theorem drawClause_draws (hwf : s.variableMap.WF) (ht : Collected s clauses t)
    (hlegible : ∀ kind, Reports s clauses kind → Legible s kind) (hr : Reports s clauses kind)
    (hk : s.clauses[id]? = some kind) (hforbid : ∀ a other name, kind ≠ .forbidMultipleInstances a other name)
    (hb : b.WF) :
    ∃ b', drawClause P s t b id = some b' ∧ Draws b b' (drawnEdges P s clauses kind) := by
  unfold drawClause
  rw [hk]
  have hlegible' := hlegible kind hr
  have hnothing (hnone : ∀ u w v, ¬ Drawn P s clauses kind u w v) : Draws b b (drawnEdges P s clauses kind) :=
    (Grows.refl hb).draws (fun t => ⟨False.elim, fun ht => hnone _ _ _ ht⟩) fun u hu => hu.elim
  cases kind with
  | installRoot => exact ⟨b, rfl, hnothing fun _ _ _ h => h⟩
  | anyOf selected other => exact ⟨b, rfl, hnothing fun _ _ _ h => h⟩
  | learnt k => exact hlegible'.elim
  | forbidMultipleInstances a other name => exact absurd rfl (hforbid a other name)
  | excluded v reason =>
      obtain ⟨x, hx⟩ := hlegible'
      dsimp only
      rw [hwf.asSolvable_iff.mpr hx, Option.map_some]
      refine ⟨_, rfl, (drawExcluded_draws hb x reason).congr fun u w u' => ?_⟩
      constructor
      · rintro ⟨⟩
        exact ⟨x, hx, rfl, rfl, rfl⟩
      · rintro ⟨y, hy, rfl, rfl, rfl⟩
        rw [hwf.lookup_inj hy hx]
        rfl
  | lock locked other =>
      obtain ⟨⟨x, hx⟩, y, hy⟩ := hlegible'
      dsimp only
      rw [hwf.asSolvable_iff.mpr hx, Option.bind_some, hwf.asSolvable_iff.mpr hy, Option.map_some]
      refine ⟨_, rfl, (drawLock_draws hb x y).congr fun u w u' => ?_⟩
      constructor
      · rintro ⟨⟩
        exact ⟨x, y, hx, hy, rfl, rfl, rfl⟩
      · rintro ⟨x', y', hx', hy', rfl, rfl, rfl⟩
        rw [hwf.lookup_inj hx' hx, hwf.lookup_inj hy' hy]
        rfl
  | constrains parent forbidden vs =>
      obtain ⟨⟨p, hp⟩, x, hx⟩ := hlegible'
      have hx' : s.variableMap.asSolvableOrRoot forbidden = some (.solvable x) := hwf.asSolvableOrRoot_iff.mpr hx
      dsimp only
      rw [hwf.asSolvableOrRoot_iff.mpr hp, Option.bind_some, hx', Option.map_some]
      refine ⟨_, rfl, (drawConstrains_draws hb p (.solvable x) vs).congr fun u w u' => ?_⟩
      constructor
      · rintro ⟨⟩
        exact ⟨p, x, hp, hx, rfl, rfl, rfl⟩
      · rintro ⟨q, y, hq, hy, rfl, rfl, rfl⟩
        rw [hwf.varOf_inj hq hp, hwf.lookup_inj hy hx]
        rfl
  | requires parent condition r =>
      have hdraws : Draws b _ _ := Draws.foldl (fun _ => True) (fun _ _ _ h => h)
        (fun p => {t | t.1 = .fromSolvableOrRoot p ∧ t.2.1 = .requires r ∧
          (candidatesOf P r = [] ∧ t.2.2 = .unresolvedDependency ∨ ∃ x ∈ candidatesOf P r, t.2.2 = .solvable x)})
        (requirersOf s t parent)
        (fun b hb _ p _ => drawRequires_draws hb (candidatesOf P r) r p) hb trivial
      refine ⟨_, rfl, hdraws.congr fun u w u' => ?_⟩
      constructor
      · rintro ⟨p, hp, h⟩
        exact ⟨p, (mem_requirersOf hwf ht).mp hp, h⟩
      · rintro ⟨p, hp, h⟩
        exact ⟨p, (mem_requirersOf hwf ht).mpr hp, h⟩
  | constrainsParent parent aux vs =>
      obtain ⟨p, hp⟩ := hlegible'
      dsimp only
      rw [hwf.asSolvableOrRoot_iff.mpr hp, Option.map_some]
      have hdraws : Draws b _ _ := Draws.foldl (fun _ => True) (fun _ _ _ h => h)
        (fun e => {(.fromSolvableOrRoot e.1, .conflict (.constrains vs), .fromSolvableOrRoot e.2)})
        ((t.constrainsAuxCandidates.getD aux []).map fun dependency => (p, dependency))
        (fun b hb _ e _ => drawSharedConstrains_draws hb vs e) hb trivial
      refine ⟨_, rfl, hdraws.congr fun u w u' => ?_⟩
      constructor
      · rintro ⟨e, he, ⟨⟩⟩
        obtain ⟨q, hq, rfl⟩ := List.mem_map.mp he
        obtain ⟨candidate, vs', x, hr', hx, rfl⟩ := (ht.mem_candidates hwf hlegible).mp hq
        exact ⟨p, hp, rfl, rfl, candidate, vs', x, hr', hx, rfl⟩
      · rintro ⟨p', hp', rfl, rfl, candidate, vs', x, hr', hx, rfl⟩
        obtain rfl := hwf.varOf_inj hp' hp
        have hq := (ht.mem_candidates hwf hlegible).mpr ⟨candidate, vs', x, hr', hx, rfl⟩
        exact ⟨_, List.mem_map_of_mem hq, rfl⟩
  | constrainsExcluded candidate aux vs =>
      obtain ⟨x, hx⟩ := hlegible'
      have hx' : s.variableMap.asSolvableOrRoot candidate = some (.solvable x) := hwf.asSolvableOrRoot_iff.mpr hx
      dsimp only
      rw [hx', Option.map_some]
      have hdraws : Draws b _ _ := Draws.foldl (fun _ => True) (fun _ _ _ h => h)
        (fun e => {(.fromSolvableOrRoot e.1, .conflict (.constrains vs), .fromSolvableOrRoot e.2)})
        ((t.constrainsAuxParents.getD aux []).map fun parent => (parent, .solvable x))
        (fun b hb _ e _ => drawSharedConstrains_draws hb vs e) hb trivial
      refine ⟨_, rfl, hdraws.congr fun u w u' => ?_⟩
      constructor
      · rintro ⟨e, he, ⟨⟩⟩
        obtain ⟨p, hp, rfl⟩ := List.mem_map.mp he
        obtain ⟨parent, vs', hr', hp'⟩ := (ht.mem_parents hwf).mp hp
        exact ⟨x, hx, rfl, rfl, parent, vs', p, hr', hp', rfl⟩
      · rintro ⟨y, hy, rfl, rfl, parent, vs', p, hr', hp, rfl⟩
        obtain rfl := hwf.lookup_inj hy hx
        have hp' := (ht.mem_parents hwf).mpr ⟨parent, vs', hr', hp⟩
        exact ⟨_, List.mem_map_of_mem hp', rfl⟩

/-! ## All clauses -/

/-- Two candidates of a package are linked, in either direction and over others. -/
def Chained (b : GraphBuilder N S) : ConflictNode S → ConflictNode S → Prop :=
  Relation.EqvGen fun u v => b.graph.Edge u (.conflict .forbidMultipleInstances) v

/-- **What was drawn for some of the clauses.** -/
structure Built (P : DependencyProvider N S) (s : SolverState N S F) (clauses front : List ClauseId)
    (b : GraphBuilder N S) : Prop where
  wf : b.WF
  sound : ∀ u w v, b.graph.Edge u w v → (∃ kind, Reports s front kind ∧ Drawn P s clauses kind u w v) ∨
    (w = .conflict .forbidMultipleInstances ∧ ∃ name, Forbidden s front name u ∧ Forbidden s front name v)
  complete : ∀ kind, Reports s front kind → ∀ u w v, Drawn P s clauses kind u w v → b.graph.Edge u w v
  nodes : ∀ u ∈ b.graph.nodes, u = .root ∨ u = .unresolvedDependency ∨
    (∃ kind w v, Reports s front kind ∧ (Drawn P s clauses kind u w v ∨ Drawn P s clauses kind v w u)) ∨
    ∃ name, Forbidden s front name u
  chained : ∀ name u v, Forbidden s front name u → Forbidden s front name v → Chained b u v
  last : ∀ name i, b.lastNodeByName.get? name = some i →
    ∃ u, b.graph.nodes[i]? = some u ∧ Forbidden s front name u
  known : ∀ name u, Forbidden s front name u → ∃ i, b.lastNodeByName.get? name = some i

theorem Reports.append {kind' : Clause N} (h : Reports s front kind') (id : ClauseId) :
    Reports s (front ++ [id]) kind' := by
  obtain ⟨i, hi, hk⟩ := h
  exact ⟨i, List.mem_append_left _ hi, hk⟩

theorem Forbidden.append {name : N} {u : ConflictNode S} (h : Forbidden s front name u) (id : ClauseId) :
    Forbidden s (front ++ [id]) name u := by
  obtain ⟨a, other, x, hr, hx⟩ := h
  exact ⟨a, other, x, hr.append id, hx⟩

theorem Chained.mono {u v : ConflictNode S} (h : Chained b u v)
    (hmono : ∀ u w v, b.graph.Edge u w v → b'.graph.Edge u w v) : Chained b' u v := by
  induction h with
  | rel u v he => exact .rel u v (hmono _ _ _ he)
  | refl u => exact .refl u
  | symm u v _ ih => exact ih.symm
  | trans u v w _ _ ih ih' => exact ih.trans _ _ _ ih'

theorem start_built : Built P s clauses [] (start : GraphBuilder N S) where
  wf := start_wf
  sound := by
    rintro u w v ⟨e, he, -⟩
    cases he
  complete := by
    rintro kind ⟨i, hi, -⟩
    cases hi
  nodes := by
    intro u hu
    rcases List.mem_pair.mp hu with rfl | rfl
    · exact .inl rfl
    · exact .inr (.inl rfl)
  chained := by
    rintro name u v ⟨a, other, x, ⟨i, hi, -⟩, -⟩
    cases hi
  last := fun _ _ h => by cases h
  known := by
    rintro name u ⟨a, other, x, ⟨i, hi, -⟩, -⟩
    cases hi

/-- Drawing the edges of a clause. -/
theorem Built.draws (h : Built P s clauses front b) (hk : s.clauses[id]? = some kind)
    (hforbid : ∀ a other name, kind ≠ .forbidMultipleInstances a other name)
    (hd : Draws b b' (drawnEdges P s clauses kind)) : Built P s clauses (front ++ [id]) b' := by
  have hold : ∀ {name u}, Forbidden s (front ++ [id]) name u → Forbidden s front name u := by
    rintro name u ⟨a, other, x, hr, hx⟩
    rcases (reports_append hk).mp hr with hr | heq
    · exact ⟨a, other, x, hr, hx⟩
    · exact absurd heq.symm (hforbid a other name)
  have hgrow : ∀ u w v, b.graph.Edge u w v → b'.graph.Edge u w v := fun u w v he => (hd.edge u w v).mpr (.inl he)
  refine ⟨hd.wf, ?_, ?_, ?_, ?_, ?_, ?_⟩
  · intro u w v he
    rcases (hd.edge u w v).mp he with he | he
    · rcases h.sound u w v he with ⟨kind', hr, hd'⟩ | ⟨hw, name, hu, hv⟩
      · exact .inl ⟨kind', hr.append id, hd'⟩
      · exact .inr ⟨hw, name, hu.append id, hv.append id⟩
    · exact .inl ⟨kind, (reports_append hk).mpr (.inr rfl), he⟩
  · intro kind' hr u w v hd'
    rcases (reports_append hk).mp hr with hr | rfl
    · exact hgrow u w v (h.complete kind' hr u w v hd')
    · exact (hd.edge u w v).mpr (.inr hd')
  · intro u hu
    rcases (hd.mem u).mp hu with hu | ⟨⟨x, w, y⟩, he, hu⟩
    · rcases h.nodes u hu with hroot | hun | ⟨kind', w, v, hr, hd'⟩ | ⟨name, hf⟩
      · exact .inl hroot
      · exact .inr (.inl hun)
      · exact .inr (.inr (.inl ⟨kind', w, v, hr.append id, hd'⟩))
      · exact .inr (.inr (.inr ⟨name, hf.append id⟩))
    · have hr : Reports s (front ++ [id]) kind := (reports_append hk).mpr (.inr rfl)
      rcases hu with rfl | rfl
      · exact .inr (.inr (.inl ⟨kind, w, y, hr, .inl he⟩))
      · exact .inr (.inr (.inl ⟨kind, w, x, hr, .inr he⟩))
  · intro name u v hu hv
    exact (h.chained name u v (hold hu) (hold hv)).mono hgrow
  · intro name i hi
    rw [hd.last] at hi
    obtain ⟨u, hu, hf⟩ := h.last name i hi
    exact ⟨u, hd.index hu, hf.append id⟩
  · intro name u hu
    rw [hd.last]
    exact h.known name u (hold hu)

/-- Linking a candidate of a package. -/
theorem Built.forbids (hwf : s.variableMap.WF) (h : Built P s clauses front b) {a : VariableId} {other : Literal}
    {name : N} {x : S} (hk : s.clauses[id]? = some (.forbidMultipleInstances a other name))
    (hx : s.IsVar (.solvable x) a) (hf : Forbids b b' name (.solvable x)) : Built P s clauses (front ++ [id]) b' := by
  have hself : Forbidden s (front ++ [id]) name (.solvable x) :=
    ⟨a, other, x, (reports_append hk).mpr (.inr rfl), hx, rfl⟩
  have hcases : ∀ {name' u}, Forbidden s (front ++ [id]) name' u →
      Forbidden s front name' u ∨ (name' = name ∧ u = .solvable x) := by
    rintro name' u ⟨a', other', y, hr, hy, rfl⟩
    rcases (reports_append hk).mp hr with hr | heq
    · exact .inl ⟨a', other', y, hr, hy, rfl⟩
    · obtain ⟨rfl, -, rfl⟩ := Clause.forbidMultipleInstances.inj heq
      rw [hwf.lookup_inj hy hx]
      exact .inr ⟨rfl, rfl⟩
  have hgrow : ∀ u w v, b.graph.Edge u w v → b'.graph.Edge u w v := fun u w v he => (hf.edge u w v).mpr (.inl he)
  obtain ⟨i, hi, hlast⟩ := hf.last
  -- a candidate that was there is linked with the new one over the last one
  have hnew : ∀ u, Forbidden s front name u → Chained b' u (.solvable x) := by
    intro u hu
    obtain ⟨j, hj⟩ := h.known name u hu
    obtain ⟨v, hv, hvf⟩ := h.last name j hj
    have hedge : b'.graph.Edge v (.conflict .forbidMultipleInstances) (.solvable x) :=
      (hf.edge _ _ _).mpr (.inr ⟨rfl, rfl, j, hj, hv⟩)
    exact ((h.chained name u v hu hvf).mono hgrow).trans _ _ _ (.rel _ _ hedge)
  refine ⟨hf.wf, ?_, ?_, ?_, ?_, ?_, ?_⟩
  · intro u w v he
    rcases (hf.edge u w v).mp he with he | ⟨rfl, rfl, j, hj, hu⟩
    · rcases h.sound u w v he with ⟨kind', hr, hd'⟩ | ⟨hw, name', hu, hv⟩
      · exact .inl ⟨kind', hr.append id, hd'⟩
      · exact .inr ⟨hw, name', hu.append id, hv.append id⟩
    · obtain ⟨u', hu', huf⟩ := h.last name j hj
      rw [Option.some.inj (hu.symm.trans hu')]
      exact .inr ⟨rfl, name, huf.append id, hself⟩
  · intro kind' hr u w v hd'
    rcases (reports_append hk).mp hr with hr | rfl
    · exact hgrow u w v (h.complete kind' hr u w v hd')
    · exact hd'.elim
  · intro u hu
    rcases (hf.mem u).mp hu with hu | rfl
    · rcases h.nodes u hu with hroot | hun | ⟨kind', w, v, hr, hd'⟩ | ⟨name', hf'⟩
      · exact .inl hroot
      · exact .inr (.inl hun)
      · exact .inr (.inr (.inl ⟨kind', w, v, hr.append id, hd'⟩))
      · exact .inr (.inr (.inr ⟨name', hf'.append id⟩))
    · exact .inr (.inr (.inr ⟨name, hself⟩))
  · intro name' u v hu hv
    rcases hcases hu with hu | ⟨rfl, rfl⟩
    · rcases hcases hv with hv | ⟨rfl, rfl⟩
      · exact (h.chained name' u v hu hv).mono hgrow
      · exact hnew u hu
    · rcases hcases hv with hv | ⟨-, rfl⟩
      · exact (hnew v hv).symm
      · exact .refl _
  · intro name' j hj
    rw [hlast] at hj
    split at hj
    · next heq =>
        obtain rfl := heq
        obtain rfl := Option.some.inj hj
        exact ⟨_, hi, hself⟩
    · obtain ⟨u, hu, huf⟩ := h.last name' j hj
      exact ⟨u, SolverState.getElem?_of_isPrefix hf.kept hu, huf.append id⟩
  · intro name' u hu
    rw [hlast]
    split
    · exact ⟨i, rfl⟩
    · next hne =>
        rcases hcases hu with hu | ⟨rfl, -⟩
        · exact h.known name' u hu
        · exact absurd rfl hne

/-- **The edges of all clauses are drawn**, if their solvables can be read off. -/
theorem draw_built (hwf : s.variableMap.WF)
    (hlegible : ∀ id ∈ clauses, ∃ kind, s.clauses[id]? = some kind ∧ Legible s kind) (hpaired : Paired s clauses) :
    ∃ b, draw P s clauses = some b ∧ Built P s clauses clauses b := by
  have hlegible' : ∀ kind, Reports s clauses kind → Legible s kind := by
    rintro kind ⟨id, hid, hk⟩
    obtain ⟨kind', hk', hl⟩ := hlegible id hid
    rw [Option.some.inj (hk.symm.trans hk')]
    exact hl
  obtain ⟨t, ht, hcollected⟩ := collectTables_collected hwf hlegible hpaired
  unfold draw
  rw [ht, Option.bind_some]
  refine foldlM_total (fun front b => Built P s clauses front b) clauses start_built ?_
  intro front id back hc b hb
  have hid : id ∈ clauses := by
    rw [hc]
    exact List.mem_append_right _ List.mem_cons_self
  obtain ⟨kind, hk, hl⟩ := hlegible id hid
  by_cases hforbid : ∀ a other name, kind ≠ .forbidMultipleInstances a other name
  · obtain ⟨b', hb', hd⟩ := drawClause_draws hwf hcollected hlegible' ⟨id, hid, hk⟩ hk hforbid hb.wf
    exact ⟨b', hb', hb.draws hk hforbid hd⟩
  · push Not at hforbid
    obtain ⟨a, other, name, rfl⟩ := hforbid
    obtain ⟨⟨x, hx⟩, horigin⟩ := hl
    refine ⟨b.drawForbidMultiple (.solvable x) name, ?_, hb.forbids hwf hk hx (drawForbidMultiple_forbids hb.wf _ name)⟩
    have hx' : s.variableMap.asSolvableOrRoot a = some (.solvable x) := hwf.asSolvableOrRoot_iff.mpr hx
    unfold drawClause
    rw [hk]
    dsimp only
    rw [hx', Option.bind_some, horigin]

/-- No edge leads away from the node for requirements without candidates. -/
theorem Built.sink (h : Built P s clauses front b) (w : ConflictEdge S) (v : ConflictNode S) :
    ¬ b.graph.Edge .unresolvedDependency w v := by
  intro he
  rcases h.sound _ w v he with ⟨kind, -, hd⟩ | ⟨-, name, ⟨a, other, x, -, -, hu⟩, -⟩
  · cases kind with
    | excluded => obtain ⟨x, -, hu, -⟩ := hd; cases hu
    | requires => obtain ⟨p, -, hu, -⟩ := hd; cases p <;> cases hu
    | lock => obtain ⟨x, y, -, -, hu, -⟩ := hd; cases hu
    | constrains => obtain ⟨p, x, -, -, hu, -⟩ := hd; cases p <;> cases hu
    | constrainsParent => obtain ⟨p, -, hu, -⟩ := hd; cases p <;> cases hu
    | constrainsExcluded => obtain ⟨x, -, -, -, parent, vs, p, -, -, hu⟩ := hd; cases p <;> cases hu
    | _ => exact hd
  · cases hu

/-- **The graph is returned exactly if all its nodes are joined to the root.** -/
theorem graph_spec (hwf : s.variableMap.WF)
    (hlegible : ∀ id ∈ clauses, ∃ kind, s.clauses[id]? = some kind ∧ Legible s kind) (hpaired : Paired s clauses) :
    ∃ b g unresolved, Built P s clauses clauses b ∧ Finished b g unresolved ∧
      ((∀ u ∈ g.nodes, g.Joins .root u) → graph P s clauses = some (g, rootNode, unresolved)) ∧
      ∀ r, graph P s clauses = some r → r = (g, rootNode, unresolved) ∧ ∀ u ∈ g.nodes, g.Joins .root u := by
  obtain ⟨b, hb, hbuilt⟩ := draw_built (P := P) hwf hlegible hpaired
  have hfinished := finish_finished hbuilt.wf hbuilt.sink
  refine ⟨b, _, _, hbuilt, hfinished, ?_⟩
  unfold graph
  rw [hb, Option.bind_some]
  generalize finish b.graph = r at hfinished ⊢
  obtain ⟨g, unresolved⟩ := r
  dsimp only at hfinished ⊢
  -- the search visits all nodes exactly if they are joined to the root
  have hjoin : g.nodes.length = (g.bfs rootNode).toFinset.card ↔ ∀ u ∈ g.nodes, g.Joins .root u := by
    rw [hfinished.wf.bfs_iff (List.getElem?_eq_some_iff.mp hfinished.root).1]
    constructor
    · intro hreach u hu
      obtain ⟨j, hj⟩ := List.mem_iff_getElem?.mp hu
      have hlt := (List.getElem?_eq_some_iff.mp hj).1
      exact (hfinished.wf.reaches_iff hfinished.root hj).mp (hreach j hlt)
    · intro hjoin j hj
      have hget := List.getElem?_eq_getElem hj
      exact (hfinished.wf.reaches_iff hfinished.root hget).mpr (hjoin _ (List.getElem_mem hj))
  constructor
  · intro hall
    rw [if_pos (hjoin.mpr hall)]
  · intro r hr
    split at hr
    · next hcard => exact ⟨(Option.some.inj hr).symm, hjoin.mp hcard⟩
    · cases hr

end Conflict

end Resolvo
