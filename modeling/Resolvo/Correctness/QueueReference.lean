import Resolvo.Correctness.QueueRun

/-!
# `Correctness.QueueReference` — the incremental decision is the decision of a full scan

The reference recomputes the frontier of every registered clause from the assignment and scans them in
position order. The queue takes three shortcuts: it visits the queued clauses only, after the first eligible
one the hot ones only, and it stops at a candidate nothing can beat. In a synchronised state none of them
changes the decision: clauses outside of the queue are not eligible, cold clauses have the least activity,
and nothing has more than the maximal activity or fewer than one candidate.
-/

set_option linter.unusedSectionVars false

namespace Resolvo

open Sat

namespace PositionMap

/-- Two maps in position order with the same entries are equal. -/
theorem Sorted.ext {m m' : PositionMap} (h : m.Sorted) (h' : m'.Sorted) (hmem : ∀ e, e ∈ m ↔ e ∈ m') :
    m = m' := by
  have hnodup : ∀ {l : PositionMap}, l.Sorted → l.Nodup := fun hl =>
    hl.imp fun {a b} hlt hab => by
      rw [hab, ClausePosition.lt_irrefl] at hlt
      cases hlt
  refine List.Perm.eq_of_pairwise (fun a b _ _ hab hba => ?_) h h'
    ((List.perm_ext_iff_of_nodup (hnodup h) (hnodup h')).mpr hmem)
  rw [ClausePosition.lt_asymm hab] at hba
  cases hba

theorem Sorted.filter {m : PositionMap} (h : m.Sorted) (p : ClausePosition × TrackedClauseId → Bool) :
    Sorted (m.filter p) := List.Pairwise.filter p h

/-- The entries behind one of a map in position order. -/
theorem Sorted.mem_after {before after : PositionMap} {e e' : ClausePosition × TrackedClauseId}
    (h : Sorted (before ++ e :: after)) :
    e' ∈ after ↔ e' ∈ before ++ e :: after ∧ ClausePosition.lt e.1 e'.1 = true := by
  obtain ⟨-, htail, hbefore⟩ := List.pairwise_append.mp h
  obtain ⟨hafter, -⟩ := List.pairwise_cons.mp htail
  constructor
  · exact fun he => ⟨by simp [he], hafter e' he⟩
  · rintro ⟨he, hlt⟩
    rcases List.mem_append.mp he with he | he
    · have := ClausePosition.lt_asymm (hbefore e' he e List.mem_cons_self)
      rw [hlt] at this
      cases this
    · rcases List.mem_cons.mp he with rfl | he
      · rw [ClausePosition.lt_irrefl] at hlt
        cases hlt
      · exact he

end PositionMap

namespace DecideQueue

variable {N S F : Type} [DecidableEq N] [DecidableEq S]

/-! ## The full scan -/

/-- The entries of all registered clauses, in position order. -/
def positionOrder (q : DecideQueue N) : PositionMap :=
  q.clauses.zipIdx.foldl (fun m e => PositionMap.insert e.1.position e.2 m) []

section Reference

variable [LinearOrder F] (P : DependencyProvider N S) (A : ActivityParams F)
  (sortedCandidates : IndexMap Requirement (List (List VariableId))) (disjunctions : List Disjunction)
  (value : VariableId → Option Bool) (nameActivity : IndexMap N F)

/-- Visit one clause: the first eligible clause is the best so far, and a later one replaces it with a
    strictly higher activity and strictly fewer candidates. Clauses of other parents are skipped while the
    best is a clause of the root. -/
def referenceStep (best : Option (Best F)) (c : TrackedClause) : Option (Best F) :=
  match best, referenceFrontier P sortedCandidates disjunctions value c with
  | best, none => best
  | none, some f => some (weigh P A nameActivity c f)
  | some best, some f =>
      let new := weigh P A nameActivity c f
      if best.explicit ∧ ¬c.parent = VariableId.root then some best
      else if best.activity < new.activity ∧ new.count < best.count then some new
      else some best

/-- The decision of a full scan over the registered clauses. -/
def reference (q : DecideQueue N) : Option QueueDecision :=
  (((q.positionOrder.filterMap fun e => q.clauses[e.2]?).foldl
    (referenceStep P A sortedCandidates disjunctions value nameActivity) none)).map Best.decision

end Reference

/-! ## Scanning entries -/

section Scan

variable [LinearOrder F] {P : DependencyProvider N S} {A : ActivityParams F}
  {sortedCandidates : IndexMap Requirement (List (List VariableId))} {disjunctions : List Disjunction}
  {value : VariableId → Option Bool} {nameActivity : IndexMap N F} {maxActivity : F}
  {marked : TrackedClauseId → Prop} {q q' : DecideQueue N}

theorem positionOrder_spec (h : Indexed P disjunctions marked q) :
    q.positionOrder.Sorted ∧ ∀ e, e ∈ q.positionOrder ↔
      ∃ c, q.clauses[e.2]? = some c ∧ e.1 = c.position := by
  have hfold : ∀ (l : List (TrackedClause × TrackedClauseId)) (m : PositionMap),
      (∀ x ∈ l, q.clauses[x.2]? = some x.1) → m.Sorted →
      (∀ e ∈ m, ∃ c, q.clauses[e.2]? = some c ∧ e.1 = c.position) →
      (l.foldl (fun m e => PositionMap.insert e.1.position e.2 m) m).Sorted ∧
        ∀ e, e ∈ l.foldl (fun m e => PositionMap.insert e.1.position e.2 m) m ↔
          e ∈ m ∨ ∃ x ∈ l, e = (x.1.position, x.2) := by
    intro l
    induction l with
    | nil => exact fun m _ hm _ => ⟨hm, by simp⟩
    | cons x l ih =>
        intro m hl hm hreg
        have hx := hl x List.mem_cons_self
        have hmem : ∀ e, e ∈ PositionMap.insert x.1.position x.2 m ↔
            e = (x.1.position, x.2) ∨ e ∈ m := by
          intro e
          rw [hm.mem_insert]
          refine ⟨fun he => he.imp_right And.left, fun he => ?_⟩
          rcases he with he | he
          · exact .inl he
          · by_cases hp : e.1 = x.1.position
            · obtain ⟨c, hc, hpc⟩ := hreg e he
              have := h.position_inj hc hx (hpc.symm.trans hp)
              exact .inl (Prod.ext hp this)
            · exact .inr ⟨he, hp⟩
        obtain ⟨h1, h2⟩ := ih (PositionMap.insert x.1.position x.2 m)
          (fun y hy => hl y (List.mem_cons_of_mem _ hy)) (hm.insert _ _).1 (by
            intro e he
            rcases (hmem e).mp he with rfl | he
            · exact ⟨x.1, hx, rfl⟩
            · exact hreg e he)
        refine ⟨h1, fun e => ?_⟩
        rw [List.foldl_cons, h2, hmem]
        simp only [List.mem_cons, exists_eq_or_imp, or_assoc]
        tauto
  obtain ⟨hs, hmem⟩ := hfold q.clauses.zipIdx [] (fun x hx => by
    have := List.mk_mem_zipIdx_iff_getElem?.mp (show (x.1, x.2) ∈ q.clauses.zipIdx from hx)
    exact this) List.Pairwise.nil (by simp)
  refine ⟨hs, fun e => ?_⟩
  rw [positionOrder, hmem]
  constructor
  · rintro (he | ⟨⟨c, id⟩, hx, rfl⟩)
    · cases he
    · exact ⟨c, List.mk_mem_zipIdx_iff_getElem?.mp hx, rfl⟩
  · rintro ⟨c, hc, hp⟩
    exact .inr ⟨(c, e.2), List.mk_mem_zipIdx_iff_getElem?.mpr hc, Prod.ext hp rfl⟩

/-- Visit the clause of an entry. -/
def entryStep (P : DependencyProvider N S) (A : ActivityParams F)
    (sortedCandidates : IndexMap Requirement (List (List VariableId))) (disjunctions : List Disjunction)
    (value : VariableId → Option Bool) (nameActivity : IndexMap N F) (q : DecideQueue N)
    (best : Option (Best F)) (e : ClausePosition × TrackedClauseId) : Option (Best F) :=
  match q.clauses[e.2]? with
  | none => best
  | some c => referenceStep P A sortedCandidates disjunctions value nameActivity best c

theorem reference_eq (q : DecideQueue N) :
    q.reference P A sortedCandidates disjunctions value nameActivity =
      (q.positionOrder.foldl
        (entryStep P A sortedCandidates disjunctions value nameActivity q) none).map Best.decision := by
  rw [reference, List.foldl_filterMap]
  congr 1
  refine List.foldl_ext _ _ _ fun best e _ => ?_
  rw [entryStep]
  cases q.clauses[e.2]? <;> rfl

/-- An entry without a frontier is skipped. -/
theorem entryStep_none {e : ClausePosition × TrackedClauseId}
    (h : entryFrontier P sortedCandidates disjunctions value q e = none) (best : Option (Best F)) :
    entryStep P A sortedCandidates disjunctions value nameActivity q best e = best := by
  rw [entryStep]
  cases hc : q.clauses[e.2]? with
  | none => rfl
  | some c =>
      rw [entryFrontier, hc, Option.bind_some, Option.map_eq_none_iff] at h
      dsimp only
      unfold referenceStep
      rw [h]

/-- An entry with a frontier competes with the best so far. -/
theorem entryStep_some {e : ClausePosition × TrackedClauseId} {c : TrackedClause}
    {f : VariableId × VersionSetId × Nat}
    (h : entryFrontier P sortedCandidates disjunctions value q e = some (c, f)) (best : Best F) :
    entryStep P A sortedCandidates disjunctions value nameActivity q none e =
        some (weigh P A nameActivity c f) ∧
      entryStep P A sortedCandidates disjunctions value nameActivity q (some best) e =
        if best.explicit ∧ ¬c.parent = VariableId.root then some best
        else if best.activity < (weigh P A nameActivity c f).activity ∧
            (weigh P A nameActivity c f).count < best.count then some (weigh P A nameActivity c f)
        else some best := by
  rw [entryFrontier, Option.bind_eq_some_iff] at h
  obtain ⟨c', hc', hf⟩ := h
  rw [Option.map_eq_some_iff] at hf
  obtain ⟨f', hf', heq⟩ := hf
  obtain ⟨rfl, rfl⟩ := Prod.mk.injEq .. ▸ heq
  simp only [entryStep, hc', referenceStep, hf']
  exact ⟨trivial, trivial⟩

/-! ## The shortcuts -/

/-- The activities are the elements of a linear order, compared as the queue compares them; cold names have
    the least activity, and none is above the maximum. -/
structure Activities (A : ActivityParams F) (nameActivity : IndexMap N F) (maxActivity : F)
    (hotNames : List N) : Prop where
  ge : ∀ a b, A.ge a b = decide (b ≤ a)
  eq : ∀ a b, A.eq a b = decide (a = b)
  cold : ∀ name, name ∉ hotNames → nameActivity.getD name A.zero = A.zero
  nonneg : ∀ name, A.zero ≤ nameActivity.getD name A.zero
  le_max : ∀ name, nameActivity.getD name A.zero ≤ maxActivity

/-- Visit an entry when there is a best clause already. -/
def bestStep (P : DependencyProvider N S) (A : ActivityParams F)
    (sortedCandidates : IndexMap Requirement (List (List VariableId))) (disjunctions : List Disjunction)
    (value : VariableId → Option Bool) (nameActivity : IndexMap N F) (q : DecideQueue N)
    (best : Best F) (e : ClausePosition × TrackedClauseId) : Best F :=
  match entryFrontier P sortedCandidates disjunctions value q e with
  | none => best
  | some (c, f) =>
      if best.explicit ∧ ¬c.parent = VariableId.root then best
      else if best.activity < (weigh P A nameActivity c f).activity ∧
          (weigh P A nameActivity c f).count < best.count then weigh P A nameActivity c f
      else best

theorem foldl_entryStep_some (l : PositionMap) (best : Best F) :
    l.foldl (entryStep P A sortedCandidates disjunctions value nameActivity q) (some best) =
      some (l.foldl (bestStep P A sortedCandidates disjunctions value nameActivity q) best) := by
  refine List.foldl_hom some fun best e => ?_
  rw [bestStep]
  cases he : entryFrontier P sortedCandidates disjunctions value q e with
  | none => exact entryStep_none he _
  | some cf =>
      obtain ⟨c, f⟩ := cf
      dsimp only
      rw [(entryStep_some he best).2]
      split
      · rfl
      · split <;> rfl

/-- A frontier counts at least its candidate. -/
theorem referenceFrontier_count {c : TrackedClause} {f : VariableId × VersionSetId × Nat}
    (h : referenceFrontier P sortedCandidates disjunctions value c = some f) :
    1 ≤ f.2.2 ∧ f.2.1 ∈ c.requirement.versionSets P ∧ Awake value disjunctions c ∧
      ∀ e ∈ walkOrder (c.requirement.versionSets P) (sortedCandidates.getD c.requirement []),
        value e.2 ≠ some true := by
  simp only [referenceFrontier] at h
  split at h
  · cases h
  next hp =>
  split at h
  · cases h
  next hcond =>
  split at h
  next candidate' vs' count' hw =>
      rw [Option.some.injEq] at h
      subst h
      have hall : ∀ e ∈ walkOrder (c.requirement.versionSets P)
          (sortedCandidates.getD c.requirement []), value e.2 ≠ some true := by
        intro e he hv
        obtain ⟨e', -, -, hw'⟩ := walk_true ⟨e, he, hv⟩ none
        rw [hw] at hw'
        cases hw'
      have hawake : Awake value disjunctions c :=
        ⟨by simpa using hp, conditionHolds_iff.mp (by simpa using hcond)⟩
      rcases walk_none hall with ⟨hw', -⟩ | ⟨c', v', n', hw', -, ⟨before, after, ho, -⟩, hnone, hcount⟩
      · rw [hw] at hw'
        cases hw'
      · rw [hw, Option.some.injEq, RequirementState.frontier.injEq] at hw'
        obtain ⟨rfl, rfl, rfl⟩ := hw'
        have hmem : (vs', candidate') ∈ walkOrder (c.requirement.versionSets P)
            (sortedCandidates.getD c.requirement []) := by
          rw [ho]
          simp
        refine ⟨?_, (mem_walkOrder hmem).1, hawake, hall⟩
        rw [hcount]
        refine List.length_pos_of_mem (a := (vs', candidate')) ?_
        exact List.mem_filter.mpr ⟨hmem, by simp [hnone]⟩
  next => cases h

theorem weigh_activity (hact : Activities A nameActivity maxActivity q.hotNames) (c : TrackedClause)
    (f : VariableId × VersionSetId × Nat) :
    A.zero ≤ (weigh P A nameActivity c f).activity ∧ (weigh P A nameActivity c f).activity ≤ maxActivity :=
  ⟨hact.nonneg _, hact.le_max _⟩

/-- Nothing beats a best clause that is unbeatable. -/
theorem foldl_bestStep_unbeatable (hact : Activities A nameActivity maxActivity q.hotNames)
    {best : Best F} (hu : unbeatable A maxActivity true best = true) (l : PositionMap) :
    l.foldl (bestStep P A sortedCandidates disjunctions value nameActivity q) best = best := by
  induction l with
  | nil => rfl
  | cons e l ih =>
      have hstep : bestStep P A sortedCandidates disjunctions value nameActivity q best e = best := by
        rw [bestStep]
        cases he : entryFrontier P sortedCandidates disjunctions value q e with
        | none => rfl
        | some cf =>
            obtain ⟨c, candidate, vs, count⟩ := cf
            dsimp only
            split
            · rfl
            · refine if_neg fun hb => ?_
              have hf : referenceFrontier P sortedCandidates disjunctions value c =
                  some (candidate, vs, count) := by
                rw [entryFrontier, Option.bind_eq_some_iff] at he
                obtain ⟨c', -, hf⟩ := he
                rw [Option.map_eq_some_iff] at hf
                obtain ⟨f', hf', heq⟩ := hf
                simp only [Prod.mk.injEq] at heq
                rw [← heq.1, hf', heq.2]
              simp only [unbeatable, Bool.true_and, Bool.or_eq_true, decide_eq_true_eq, hact.eq] at hu
              rcases hu with hcount | hmax
              · have h1 : 1 ≤ count := (referenceFrontier_count hf).1
                have h2 : count < best.count := hb.2
                omega
              · exact absurd (hmax ▸ hb.1) (not_lt.mpr (weigh_activity hact c _).2)
      rw [List.foldl_cons, hstep, ih]

/-- The search with early exits is the fold without them. -/
theorem scanBest_eq (hact : Activities A nameActivity maxActivity q.hotNames) (hhot : q.hotOnly = true)
    (l : PositionMap) (hl : ∀ e ∈ l, ∃ c, q.clauses[e.2]? = some c ∧ c.position = e.1) (best : Best F) :
    scanBest P A sortedCandidates disjunctions value nameActivity maxActivity q l best =
      l.foldl (bestStep P A sortedCandidates disjunctions value nameActivity q) best := by
  induction l generalizing best with
  | nil => rfl
  | cons e l ih =>
      obtain ⟨c, hc, -⟩ := hl e List.mem_cons_self
      have ih := ih fun e he => hl e (List.mem_cons_of_mem _ he)
      rw [List.foldl_cons]
      have hentry : entryFrontier P sortedCandidates disjunctions value q e =
          (referenceFrontier P sortedCandidates disjunctions value c).map fun f => (c, f) := by
        rw [entryFrontier, hc, Option.bind_some]
      simp only [scanBest, hc, bestStep, hentry]
      cases hf : referenceFrontier P sortedCandidates disjunctions value c with
      | none =>
          simp only [Option.map_none]
          split <;> exact ih best
      | some f =>
          obtain ⟨candidate, vs, count⟩ := f
          simp only [Option.map_some]
          by_cases hex : best.explicit = true ∧ ¬c.parent = VariableId.root
          · rw [if_pos hex, if_pos hex]
            exact ih best
          · rw [if_neg hex, if_neg hex]
            have hiff : (A.ge best.activity (packageActivity P A nameActivity vs) ||
                decide (best.count ≤ count)) = true ↔
                ¬ (best.activity < (weigh P A nameActivity c (candidate, vs, count)).activity ∧
                  (weigh P A nameActivity c (candidate, vs, count)).count < best.count) := by
              simp only [hact.ge, Bool.or_eq_true, decide_eq_true_eq, weigh, not_and_or, not_lt]
            by_cases hge : (A.ge best.activity (packageActivity P A nameActivity vs) ||
                decide (best.count ≤ count)) = true
            · rw [if_pos hge, if_neg (hiff.mp hge)]
              exact ih best
            · rw [if_neg hge, if_pos (by_contra fun h => hge (hiff.mpr h)), hhot]
              split
              · next hu => exact (foldl_bestStep_unbeatable hact hu l).symm
              · exact ih _

/-- An entry with a frontier belongs to an eligible clause. -/
theorem Fresh.eligible (h : Fresh P sortedCandidates disjunctions value q)
    {e : ClausePosition × TrackedClauseId} {c : TrackedClause} {f : VariableId × VersionSetId × Nat}
    (he : entryFrontier P sortedCandidates disjunctions value q e = some (c, f)) :
    q.clauses[e.2]? = some c ∧
      referenceFrontier P sortedCandidates disjunctions value c = some f ∧
      Eligible sortedCandidates value disjunctions c := by
  rw [entryFrontier, Option.bind_eq_some_iff] at he
  obtain ⟨c', hc', hf⟩ := he
  rw [Option.map_eq_some_iff] at hf
  obtain ⟨f', hf', heq⟩ := hf
  simp only [Prod.mk.injEq] at heq
  obtain ⟨rfl, rfl⟩ := heq
  obtain ⟨-, -, hawake, hall⟩ := referenceFrontier_count hf'
  refine ⟨hc', hf', hawake, fun candidate hmem hv => ?_⟩
  obtain ⟨vs, hw⟩ := walkOrder_of_mem (h.aligned _ c' hc') hmem
  exact hall _ hw hv

/-- A clause with a frontier is queued. -/
theorem Fresh.queued (h : Fresh P sortedCandidates disjunctions value q)
    {e : ClausePosition × TrackedClauseId} {c : TrackedClause} {f : VariableId × VersionSetId × Nat}
    (he : entryFrontier P sortedCandidates disjunctions value q e = some (c, f))
    (hp : e.1 = c.position) : e ∈ q.queue := by
  obtain ⟨hc, -, hawake, hall⟩ := h.eligible he
  have := (h.covered _ c hc hawake trivial).resolve_right fun ⟨by_, hb⟩ => by
    obtain ⟨hcand, hv, -⟩ := h.cached.satisfied _ by_ hb
    exact hall by_ hcand hv
  rw [← hp] at this
  exact this

/-- The entries with a frontier are the same in the queue and among all clauses. -/
theorem Fresh.filter_positionOrder (h : Fresh P sortedCandidates disjunctions value q) :
    (q.positionOrder.filter fun e => (entryFrontier P sortedCandidates disjunctions value q e).isSome) =
      q.queue.filter fun e => (entryFrontier P sortedCandidates disjunctions value q e).isSome := by
  obtain ⟨hsorted, hmem⟩ := positionOrder_spec h.indexed
  refine (hsorted.filter _).ext (h.indexed.sorted.filter _) fun e => ?_
  rw [List.mem_filter, List.mem_filter]
  refine and_congr_left fun hsome => ?_
  obtain ⟨⟨c, f⟩, hcf⟩ := Option.isSome_iff_exists.mp hsome
  have hc := (h.eligible hcf).1
  rw [hmem]
  constructor
  · rintro ⟨c', hc', hp⟩
    rw [hc, Option.some.injEq] at hc'
    exact h.queued hcf (hc' ▸ hp)
  · intro he
    obtain ⟨c', hc', hp⟩ := h.indexed.queued e he
    exact ⟨c', hc', hp.symm⟩

/-- A cold clause beats no clause. -/
theorem bestStep_cold (h : Fresh P sortedCandidates disjunctions value q)
    (hact : Activities A nameActivity maxActivity q.hotNames) {e : ClausePosition × TrackedClauseId}
    {best : Best F} (hbest : A.zero ≤ best.activity)
    (hcold : ∀ c, q.clauses[e.2]? = some c → c.hot = false) :
    bestStep P A sortedCandidates disjunctions value nameActivity q best e = best := by
  rw [bestStep]
  cases he : entryFrontier P sortedCandidates disjunctions value q e with
  | none => rfl
  | some cf =>
      obtain ⟨c, candidate, vs, count⟩ := cf
      obtain ⟨hc, hf, -⟩ := h.eligible he
      have hvs := (referenceFrontier_count hf).2.1
      have hname : P.versionSetName vs ∉ q.hotNames := by
        intro hh
        have hhot := (h.indexed.hot _ c hc).mpr ⟨c, hc, _, List.mem_map_of_mem hvs, hh⟩
        rw [hcold c hc] at hhot
        cases hhot
      dsimp only
      split
      · rfl
      · refine if_neg fun hb => absurd hb.1 (not_lt.mpr ?_)
        have hzero : (weigh P A nameActivity c (candidate, vs, count)).activity = A.zero := hact.cold _ hname
        rw [hzero]
        exact hbest

theorem bestStep_nonneg (hact : Activities A nameActivity maxActivity q.hotNames) {best : Best F}
    (hbest : A.zero ≤ best.activity) (e : ClausePosition × TrackedClauseId) :
    A.zero ≤ (bestStep P A sortedCandidates disjunctions value nameActivity q best e).activity := by
  rw [bestStep]
  split
  · exact hbest
  · split
    · exact hbest
    · split
      · exact (weigh_activity hact _ _).1
      · exact hbest

/-- The hot clauses behind a position decide as much as all queued clauses behind it. -/
theorem Fresh.foldl_hotQueue (h : Fresh P sortedCandidates disjunctions value q)
    (h' : Fresh P sortedCandidates disjunctions value q') (hs : SameIndex q q')
    (hact : Activities A nameActivity maxActivity q.hotNames) {before after : PositionMap}
    {e : ClausePosition × TrackedClauseId} (hsplit : q.queue = before ++ e :: after) {best : Best F}
    (hbest : A.zero ≤ best.activity) :
    (PositionMap.after e.1 q'.hotQueue).foldl
        (bestStep P A sortedCandidates disjunctions value nameActivity q) best =
      after.foldl (bestStep P A sortedCandidates disjunctions value nameActivity q) best := by
  have hentries : ∀ e, entryFrontier P sortedCandidates disjunctions value q' e =
      entryFrontier P sortedCandidates disjunctions value q e := by
    intro e
    rw [entryFrontier, entryFrontier, hs.clauses]
  -- only hot entries with a frontier have an effect
  have hskip : ∀ l : PositionMap,
      (l.filter fun e => (entryFrontier P sortedCandidates disjunctions value q e).isSome &&
          ((q.clauses[e.2]?).any TrackedClause.hot)).foldl
        (bestStep P A sortedCandidates disjunctions value nameActivity q) best =
      l.foldl (bestStep P A sortedCandidates disjunctions value nameActivity q) best := by
    intro l
    refine List.foldl_filter_of_noop (fun b => A.zero ≤ b.activity) l hbest
      (fun b e _ hb => bestStep_nonneg hact hb e) fun b e _ hb hp => ?_
    rw [Bool.and_eq_false_iff] at hp
    rcases hp with hp | hp
    · have hnone : entryFrontier P sortedCandidates disjunctions value q e = none := by simpa using hp
      rw [bestStep, hnone]
    · refine bestStep_cold h hact hb fun c hc => ?_
      rw [hc] at hp
      simpa using hp
  have hsorted := h.indexed.sorted
  rw [hsplit] at hsorted
  have hsuffix : PositionMap.Sorted after :=
    (List.pairwise_cons.mp (List.pairwise_append.mp hsorted).2.1).2
  refine (hskip _).symm.trans (Eq.trans (congrArg (List.foldl _ best) ?_) (hskip after))
  refine PositionMap.Sorted.ext (PositionMap.Sorted.filter
    (PositionMap.Sorted.filter h'.indexed.hotSorted _) _) (hsuffix.filter _) fun e' => ?_
  rw [List.mem_filter, List.mem_filter]
  refine and_congr_left fun hp => ?_
  rw [Bool.and_eq_true] at hp
  obtain ⟨⟨c, f⟩, hcf⟩ := Option.isSome_iff_exists.mp hp.1
  have hc := (h.eligible hcf).1
  have hhot : c.hot = true := by
    have := hp.2
    rw [hc] at this
    simpa using this
  rw [PositionMap.Sorted.mem_after hsorted, ← hsplit, PositionMap.after, List.mem_filter, h'.indexed.hotQueued]
  refine and_congr_left fun _ => ?_
  constructor
  · rintro ⟨he, -⟩
    obtain ⟨c', hc', hpos⟩ := h'.indexed.queued e' he
    rw [hs.clauses, hc, Option.some.injEq] at hc'
    exact h.queued hcf (by rw [hc', hpos])
  · intro he
    obtain ⟨c', hc', hpos⟩ := h.indexed.queued e' he
    rw [hc, Option.some.injEq] at hc'
    refine ⟨h'.queued ((hentries e').trans hcf) (by rw [hc', hpos]), c, ?_, hhot⟩
    rw [hs.clauses]
    exact hc

/-- **The incremental decision is the decision of a full scan.** -/
theorem Fresh.nextDecision_reference (h : Fresh P sortedCandidates disjunctions value q)
    (hact : Activities A nameActivity maxActivity q.hotNames) (hhot : q.hotOnly = true)
    (hundecided : Undecided sortedCandidates value disjunctions q) :
    ∃ q', q.nextDecision P A value sortedCandidates disjunctions nameActivity maxActivity =
      some (q.reference P A sortedCandidates disjunctions value nameActivity, q') := by
  have hnext := h.nextDecision A nameActivity maxActivity
  -- the scan only meets entries of the queue
  have hscan : q.reference P A sortedCandidates disjunctions value nameActivity =
      (q.queue.foldl (entryStep P A sortedCandidates disjunctions value nameActivity q) none).map
        Best.decision := by
    rw [reference_eq]
    congr 1
    have hskip : ∀ (l : PositionMap) (b : Option (Best F)),
        (l.filter fun e => (entryFrontier P sortedCandidates disjunctions value q e).isSome).foldl
          (entryStep P A sortedCandidates disjunctions value nameActivity q) b =
        l.foldl (entryStep P A sortedCandidates disjunctions value nameActivity q) b := fun l b =>
      List.foldl_filter_of_noop (fun _ => True) l trivial (fun _ _ _ _ => trivial)
        fun b e _ _ he => entryStep_none (by simpa using he) b
    rw [← hskip, h.filter_positionOrder, hskip]
  have hfirst := h.firstEligible A nameActivity q.queue h.indexed.queued
  rw [hscan]
  simp only [DecideQueue.nextDecision] at hnext ⊢
  generalize DecideQueue.firstEligible P A value sortedCandidates disjunctions nameActivity q.queue q =
    result at hfirst hnext ⊢
  rcases result with _ | ⟨_ | best, q₁⟩
  · exact absurd hundecided hnext
  · obtain ⟨hf, hs, hall⟩ := hfirst
    have hnone : q.queue.foldl (entryStep P A sortedCandidates disjunctions value nameActivity q) none =
        none := List.foldl_rule (· = none) q.queue rfl fun b e he hb => by
      rw [entryStep_none (hall e he), hb]
    rw [hnone]
    exact ⟨q₁, rfl⟩
  · obtain ⟨hf, hs, before, e, after, c, f, hsplit, hbefore, he, hbest⟩ := hfirst
    -- the scan has the same first clause, and goes on with the rest of the queue
    have hfold : q.queue.foldl (entryStep P A sortedCandidates disjunctions value nameActivity q) none =
        some (after.foldl (bestStep P A sortedCandidates disjunctions value nameActivity q) best) := by
      have hskip : before.foldl (entryStep P A sortedCandidates disjunctions value nameActivity q) none =
          none := List.foldl_rule (· = none) before rfl fun b e' he' hb => by
        rw [entryStep_none (hbefore e' he'), hb]
      rw [hsplit, List.foldl_append, hskip, List.foldl_cons, (entryStep_some he best).1, ← hbest,
        foldl_entryStep_some]
    rw [hfold]
    dsimp only at hnext ⊢
    have hact₁ : Activities A nameActivity maxActivity q₁.hotNames := by rw [hs.hotNames]; exact hact
    rw [hs.hotOnly, hhot] at hnext ⊢
    by_cases hu : unbeatable A maxActivity true best = true
    · rw [if_pos hu, foldl_bestStep_unbeatable hact hu]
      exact ⟨q₁, rfl⟩
    · rw [if_neg hu] at hnext ⊢
      rw [if_pos rfl] at hnext ⊢
      have hqueued : ∀ e ∈ PositionMap.after best.position q₁.hotQueue, e ∈ q₁.queue := fun e he =>
        ((hf.indexed.hotQueued e).mp (List.mem_filter.mp he).1).1
      have himprove := hf.improve A nameActivity maxActivity
        (PositionMap.after best.position q₁.hotQueue) best
        fun e he => hf.indexed.queued e (hqueued e he)
      generalize DecideQueue.improve P A value sortedCandidates disjunctions nameActivity maxActivity
        (PositionMap.after best.position q₁.hotQueue) best q₁ = result at himprove hnext ⊢
      rcases result with _ | ⟨best', q'⟩
      · exact absurd hundecided hnext
      · obtain ⟨_, _, hbest'⟩ := himprove
        refine ⟨q', ?_⟩
        rw [hbest', scanBest_eq hact₁ (hs.hotOnly.trans hhot) _
          (fun e he => hf.indexed.queued e (hqueued e he))]
        have hstep : bestStep P A sortedCandidates disjunctions value nameActivity q₁ =
            bestStep P A sortedCandidates disjunctions value nameActivity q := by
          funext b e
          rw [bestStep, bestStep, entryFrontier, entryFrontier, hs.clauses]
        have hpos : best.position = e.1 := by
          obtain ⟨c', hc', hp⟩ := h.indexed.queued e (by rw [hsplit]; simp)
          rw [(h.eligible he).1, Option.some.injEq] at hc'
          rw [hbest, ← hp, ← hc']
          rfl
        rw [hstep, hpos, h.foldl_hotQueue hf hs hact hsplit (by rw [hbest]; exact (weigh_activity hact c f).1)]
        rfl

end Scan

end DecideQueue

/-- **The incremental decision equals a full scan.** -/
theorem QueueState.Reachable.nextDecision_eq_reference {N S F : Type} [DecidableEq N] [DecidableEq S]
    [LinearOrder F] {P : DependencyProvider N S} {A : ActivityParams F}
    {sortedCandidates : IndexMap Requirement (List (List VariableId))} {nameActivity : IndexMap N F}
    {maxActivity : F} {s : QueueState N} (h : s.Reachable P sortedCandidates) (hs : s.synced = true)
    (hundecided : DecideQueue.Undecided sortedCandidates s.tracker.map.value s.disjunctions s.queue)
    (hact : DecideQueue.Activities A nameActivity maxActivity s.marked) (hhot : s.queue.hotOnly = true) :
    ∃ queue, s.queue.nextDecision P A s.tracker.map.value sortedCandidates s.disjunctions nameActivity
        maxActivity =
      some (s.queue.reference P A sortedCandidates s.disjunctions s.tracker.map.value nameActivity,
        queue) :=
  (h.fresh hs).nextDecision_reference
    { hact with cold := fun name hn => hact.cold name fun hm => hn ((h.inv.marked name).mpr hm) }
    hhot hundecided

/-- In the sample state the incremental decision is the one of the full scan. -/
theorem QueueState.sample_nextDecision_eq_reference :
    ∃ queue, QueueState.sample.queue.nextDecision QueueState.sampleBox.provider defaultActivity
        QueueState.sample.tracker.map.value QueueState.sampleCandidates QueueState.sample.disjunctions {} 0 =
      some (QueueState.sample.queue.reference QueueState.sampleBox.provider defaultActivity
        QueueState.sampleCandidates QueueState.sample.disjunctions QueueState.sample.tracker.map.value {},
        queue) :=
  QueueState.sample_reachable.nextDecision_eq_reference rfl QueueState.sample_undecided
    ⟨fun _ _ => rfl, fun _ _ => rfl, fun _ _ => rfl, fun _ => le_rfl, fun _ => le_rfl⟩ rfl

end Resolvo
