import Resolvo.Correctness.Learning

/-!
# `Correctness.Conflict` — the reported clauses are an unsatisfiable core

`analyze_unsolvable` walks the trail of level 1 backwards from a falsified clause, follows the reasons of
the variables involved, and replaces learnt clauses by their causes. What it collects contains every leaf
of every clause the conflict rests on, and an assignment with the root true cannot satisfy all of those.
-/

set_option linter.unusedSectionVars false

namespace Resolvo

open Sat

variable {N S F : Type} [DecidableEq N] [DecidableEq S]

namespace SolverState

/-! ## Expanding learnt clauses -/

/-- Every clause that `id` rests on is in the list. -/
def Covered (s : SolverState N S F) (conflict : List ClauseId) (id : ClauseId) : Prop :=
  ∀ j, Leaf s.causes id j → j ∈ conflict

theorem Covered.mono {s : SolverState N S F} {conflict conflict' : List ClauseId} {id : ClauseId}
    (h : s.Covered conflict id) (hsub : conflict ⊆ conflict') : s.Covered conflict' id :=
  fun j hj => hsub (h j hj)

/-- What expanding a clause adds to the accumulators. -/
structure Expanded (s : SolverState N S F) (roots : List ClauseId)
    (acc acc' : List ClauseId × List ClauseId) : Prop where
  conflict : acc.1 ⊆ acc'.1
  covered : ∀ id ∈ roots, s.Covered acc'.1 id
  seen : ∀ j ∈ acc'.2, j ∈ acc.2 ∨ s.Covered acc'.1 j
  leaves : ∀ j ∈ acc'.1, j ∈ acc.1 ∨ ∃ id ∈ roots, Leaf s.causes id j

theorem mem_addToConflict {conflict : List ClauseId} {id j : ClauseId} :
    j ∈ addToConflict conflict id ↔ j ∈ conflict ∨ j = id := by
  simp only [addToConflict]
  split
  · next h =>
      constructor
      · exact .inl
      · rintro (hj | rfl)
        · exact hj
        · exact h
  · simp

/-- A clause that is not learnt is its own only leaf. -/
theorem expanded_given {s : SolverState N S F} {id : ClauseId} (h : s.causes id = none)
    (acc : List ClauseId × List ClauseId) :
    Expanded s [id] acc (addToConflict acc.1 id, acc.2) where
  conflict := fun j hj => mem_addToConflict.mpr (.inl hj)
  covered := by
    intro id' hid' j hj
    rw [List.mem_singleton.mp hid'] at hj
    exact mem_addToConflict.mpr (.inr (hj.of_given h))
  seen := fun j hj => .inl hj
  leaves := by
    intro j hj
    rcases mem_addToConflict.mp hj with hj | rfl
    · exact .inl hj
    · exact .inr ⟨j, by simp, .given h⟩

/-- Expanding the causes one after the other. -/
theorem expanded_foldl {s : SolverState N S F} {f : List ClauseId × List ClauseId → ClauseId →
      List ClauseId × List ClauseId} {bound : ClauseId} (why : List ClauseId)
    (hwhy : ∀ i ∈ why, i < bound)
    (hf : ∀ acc, ∀ i ∈ why, (∀ j ∈ acc.2, j ≤ i → s.Covered acc.1 j) →
      Expanded s [i] acc (f acc i)) (acc : List ClauseId × List ClauseId)
    (hacc : ∀ j ∈ acc.2, j < bound → s.Covered acc.1 j) :
    Expanded s why acc (why.foldl f acc) := by
  induction why generalizing acc with
  | nil => exact ⟨fun _ h => h, by simp, fun _ h => .inl h, fun _ h => .inl h⟩
  | cons i why ih =>
      have hi : i < bound := hwhy i List.mem_cons_self
      have h₁ := hf acc i List.mem_cons_self fun j hj hle => hacc j hj (Nat.lt_of_le_of_lt hle hi)
      have hacc' : ∀ j ∈ (f acc i).2, j < bound → s.Covered (f acc i).1 j := by
        intro j hj hlt
        rcases h₁.seen j hj with hold | hcov
        · exact (hacc j hold hlt).mono h₁.conflict
        · exact hcov
      have h₂ := ih (fun i' hi' => hwhy i' (List.mem_cons_of_mem _ hi'))
        (fun acc' i' hi' => hf acc' i' (List.mem_cons_of_mem _ hi')) (f acc i) hacc'
      refine ⟨fun j hj => h₂.conflict (h₁.conflict hj), ?_, ?_, ?_⟩
      · intro id hid
        rcases List.mem_cons.mp hid with rfl | hid
        · exact (h₁.covered id (by simp)).mono h₂.conflict
        · exact h₂.covered id hid
      · intro j hj
        rcases h₂.seen j hj with hj | hcov
        · rcases h₁.seen j hj with hj | hcov
          · exact .inl hj
          · exact .inr (hcov.mono h₂.conflict)
        · exact .inr hcov
      · intro j hj
        rcases h₂.leaves j hj with hj | ⟨id, hid, hleaf⟩
        · rcases h₁.leaves j hj with hj | ⟨id, hid, hleaf⟩
          · exact .inl hj
          · exact .inr ⟨id, by rw [List.mem_singleton.mp hid]; exact List.mem_cons_self, hleaf⟩
        · exact .inr ⟨id, List.mem_cons_of_mem _ hid, hleaf⟩

/-- **Expanding a clause collects its leaves.** Clauses seen before are covered unless they are being
    expanded right now, and those have larger ids. -/
theorem analyzeUnsolvableClause_spec {s : SolverState N S F} (hs : s.Arena) (fuel : Nat)
    {id : ClauseId} (hfuel : id < fuel) (acc : List ClauseId × List ClauseId)
    (hacc : ∀ j ∈ acc.2, j ≤ id → s.Covered acc.1 j) :
    Expanded s [id] acc (s.analyzeUnsolvableClause fuel acc id) := by
  induction fuel generalizing id acc with
  | zero => exact absurd hfuel (Nat.not_lt_zero _)
  | succ fuel ih =>
      obtain ⟨conflict, seen⟩ := acc
      simp only [analyzeUnsolvableClause]
      split
      · next k hk =>
          obtain ⟨learnt, hl⟩ := hs.closed id _ hk
          have hlt : k < s.learntWhy.length := by
            rw [hs.learnt_length]
            exact (List.getElem?_eq_some_iff.mp hl).1
          have hw : s.learntWhy[k]? = some s.learntWhy[k] := List.getElem?_eq_getElem hlt
          generalize s.learntWhy[k] = why at hw
          have hcauses : s.causes id = some why := by simp [causes, hk, hw]
          have hwhy : ∀ i ∈ why, i < id := fun i hi => hs.derivation.lt hcauses i hi
          split
          · next hseen =>
              have hcov : s.Covered conflict id := hacc id hseen le_rfl
              refine ⟨fun _ h => h, ?_, fun _ h => .inl h, fun _ h => .inl h⟩
              intro id' hid'
              exact List.mem_singleton.mp hid' ▸ hcov
          · rw [hw, Option.getD_some]
            have hfold := expanded_foldl (f := s.analyzeUnsolvableClause fuel) why hwhy
              (fun acc i hi => ih (Nat.lt_of_lt_of_le (hwhy i hi) (Nat.lt_succ_iff.mp hfuel)) acc)
              (conflict, seen ++ [id]) (by
                intro j hj hlt
                rcases List.mem_append.mp hj with hj | hj
                · exact hacc j hj (Nat.le_of_lt hlt)
                · rw [List.mem_singleton.mp hj] at hlt
                  exact absurd hlt (Nat.lt_irrefl _))
            have hcov : s.Covered (why.foldl (s.analyzeUnsolvableClause fuel)
                (conflict, seen ++ [id])).1 id := by
              intro j hj
              cases hj with
              | given h => rw [hcauses] at h; cases h
              | derived h hi hj =>
                  obtain rfl := Option.some.inj (hcauses.symm.trans h)
                  exact hfold.covered _ hi j hj
            refine ⟨hfold.conflict, ?_, ?_, ?_⟩
            · intro id' hid'
              rw [List.mem_singleton.mp hid']
              exact hcov
            · intro j hj
              rcases hfold.seen j hj with hj | hcov'
              · rcases List.mem_append.mp hj with hj | hj
                · exact .inl hj
                · rw [List.mem_singleton.mp hj]
                  exact .inr hcov
              · exact .inr hcov'
            · intro j hj
              rcases hfold.leaves j hj with hj | ⟨i, hi, hleaf⟩
              · exact .inl hj
              · exact .inr ⟨id, by simp, .derived hcauses hi hleaf⟩
      · next hnot =>
          refine expanded_given ?_ (conflict, seen)
          cases hk : s.clauses[id]? with
          | none => simp [causes, hk]
          | some kind =>
              cases kind with
              | learnt k => exact absurd hk (hnot k)
              | _ => simp [causes, hk]

/-! ## The walk over the trail -/

/-- What the reverse walk collects from the entries it passes. -/
structure Walked (s : SolverState N S F) (ds : List Decision) (a a' : UnsolvableAnalysis) : Prop where
  involved : a.involved ⊆ a'.involved
  conflict : a.conflict ⊆ a'.conflict
  /-- New variables belong to earlier entries. -/
  fresh : ∀ v ∈ a'.involved, v ∈ a.involved ∨ ∃ d ∈ ds, d.var = v
  /-- The reason of every involved entry is covered, and its other variables are involved. -/
  reasons : ∀ d ∈ ds, d.var ≠ VariableId.root → d.var ∈ a'.involved →
    s.Covered a'.conflict d.derivedFrom ∧
      ∀ l ∈ s.literals d.derivedFrom, l ≠ d.lit → l.var ∈ a'.involved
  leaves : ∀ j ∈ a'.conflict, j ∈ a.conflict ∨
    ∃ d ∈ ds, s.literals d.derivedFrom ≠ [] ∧ Leaf s.causes d.derivedFrom j

theorem analyzeTrail_spec {s : SolverState N S F} (hs : s.Core) (ds : List Decision)
    (hpre : ds.reverse <+: s.decisionTracker.stack)
    (himp : ∀ pre d, pre ++ [d] <+: s.decisionTracker.stack → d.var ≠ VariableId.root →
      d.lit ∈ s.literals d.derivedFrom ∧
        ∀ l ∈ s.literals d.derivedFrom, l ≠ d.lit → ∃ d' ∈ pre, d'.lit = l.neg)
    {a a' : UnsolvableAnalysis} (hseen : ∀ j ∈ a.seen, s.Covered a.conflict j)
    (h : s.analyzeTrail ds a = some a') : Walked s ds a a' := by
  induction ds generalizing a with
  | nil =>
      simp only [analyzeTrail, Option.some.injEq] at h
      subst h
      exact ⟨fun _ h => h, fun _ h => h, fun _ h => .inl h, by simp, fun _ h => .inl h⟩
  | cons d rest ih =>
      rw [List.reverse_cons] at hpre
      have hpre' : rest.reverse <+: s.decisionTracker.stack := (List.prefix_append _ _).trans hpre
      have hout : ∀ d' ∈ rest, d'.var ≠ d.var := by
        have hnd := (hpre.sublist.map Decision.var).nodup hs.tracker.nodup
        rw [List.map_append, List.nodup_append] at hnd
        exact fun d' hd' => hnd.2.2 _ (List.mem_map.mpr ⟨d', by simpa using hd', rfl⟩) d.var (by simp)
      simp only [analyzeTrail] at h
      split at h
      · next hskip =>
          have hw := ih hpre' hseen h
          refine ⟨hw.involved, hw.conflict, ?_, ?_, ?_⟩
          · exact fun v hv => (hw.fresh v hv).imp_right fun ⟨d', hd', he⟩ =>
              ⟨d', List.mem_cons_of_mem _ hd', he⟩
          · intro d' hd' hroot hinv
            rcases List.mem_cons.mp hd' with rfl | hd'
            · -- an entry that is skipped stays uninvolved
              rcases hw.fresh _ hinv with hv | ⟨d'', hd'', he⟩
              · exact absurd hv (hskip.resolve_left hroot)
              · exact absurd he (hout d'' hd'')
            · exact hw.reasons d' hd' hroot hinv
          · exact fun j hj => (hw.leaves j hj).imp_right fun ⟨d', hd', he⟩ =>
              ⟨d', List.mem_cons_of_mem _ hd', he⟩
      · next hskip =>
          obtain ⟨hroot, hinv⟩ := not_or.mp hskip
          split at h
          · cases h
          · split at h
            · cases h
            · obtain ⟨hmem, hothers⟩ := himp _ d hpre hroot
              have hex := analyzeUnsolvableClause_spec hs.arena (s.clauses.length + 1)
                (Nat.lt_succ_of_lt (lt_of_mem_literals hmem)) (a.conflict, a.seen)
                fun j hj _ => hseen j hj
              have hother : ∀ l ∈ s.literals d.derivedFrom, l ≠ d.lit →
                  s.decisionTracker.eval l ≠ some true ∧ ∃ d' ∈ rest, d'.var = l.var := by
                intro l hl hne
                obtain ⟨d', hd', hneg⟩ := hothers l hl hne
                refine ⟨?_, d', by simpa using hd', by rw [← Decision.lit_var, hneg]; rfl⟩
                have hstack : d' ∈ s.decisionTracker.stack :=
                  hpre'.subset hd'
                have : s.decisionTracker.eval l = some false :=
                  hs.tracker.eval_false_iff.mpr
                    ⟨_, DecisionTracker.mem_trail.mpr ⟨d', hstack, rfl⟩, hneg⟩
                simp [this]
              have hw := ih hpre' (fun j hj => by
                rcases hex.seen j hj with hj | hcov
                · exact (hseen j hj).mono hex.conflict
                · exact hcov) h
              refine ⟨fun v hv => hw.involved (List.mem_append_left _ hv),
                fun j hj => hw.conflict (hex.conflict hj), ?_, ?_, ?_⟩
              · intro v hv
                rcases hw.fresh v hv with hv | ⟨d', hd', he⟩
                · rcases List.mem_append.mp hv with hv | hv
                  · exact .inl hv
                  · obtain ⟨l, hl, rfl⟩ := List.mem_map.mp hv
                    obtain ⟨hl, hnt⟩ := List.mem_filter.mp hl
                    by_cases hld : l = d.lit
                    · exact .inr ⟨d, List.mem_cons_self, by rw [hld]; rfl⟩
                    · obtain ⟨-, d', hd', he⟩ := hother l hl hld
                      exact .inr ⟨d', List.mem_cons_of_mem _ hd', he⟩
                · exact .inr ⟨d', List.mem_cons_of_mem _ hd', he⟩
              · intro d' hd' hroot' hinv'
                rcases List.mem_cons.mp hd' with rfl | hd'
                · refine ⟨(hex.covered _ (by simp)).mono hw.conflict, fun l hl hne => ?_⟩
                  refine hw.involved (List.mem_append_right _ (List.mem_map.mpr ⟨l, ?_, rfl⟩))
                  exact List.mem_filter.mpr ⟨hl, by simpa using (hother l hl hne).1⟩
                · exact hw.reasons d' hd' hroot' hinv'
              · intro j hj
                rcases hw.leaves j hj with hj | ⟨d', hd', he⟩
                · rcases hex.leaves j hj with hj | ⟨id, hid, hleaf⟩
                  · exact .inl hj
                  · rw [List.mem_singleton.mp hid] at hleaf
                    exact .inr ⟨d, List.mem_cons_self, List.ne_nil_of_mem hmem, hleaf⟩
                · exact .inr ⟨d', List.mem_cons_of_mem _ hd', he⟩

/-! ## The core -/

/-- The first entry of the trail installs the root. -/
def Rooted (t : DecisionTracker) : Prop :=
  ∀ e, t.trail.head? = some e → e = ⟨positive VariableId.root, 1, ClauseId.installRoot⟩

/-- A clause id that names a clause of the problem: in the arena, neither learnt nor the root's. -/
def IsProblemClause (s : SolverState N S F) (id : ClauseId) : Prop :=
  ∃ kind, s.clauses[id]? = some kind ∧ kind ≠ .installRoot ∧ ∀ k, kind ≠ .learnt k

/-- The leaves of a clause of the arena are clauses of the problem. -/
theorem Arena.isProblemClause_of_leaf {s : SolverState N S F} (hs : s.Arena) {id j : ClauseId}
    (hid : s.literals id ≠ []) (h : Leaf s.causes id j) : s.IsProblemClause j := by
  obtain ⟨l, hl⟩ := List.exists_mem_of_ne_nil _ hid
  obtain ⟨hlt, hne⟩ : j < s.clauses.length ∧ j ≠ ClauseId.installRoot :=
    h.induct (fun i => i < s.clauses.length ∧ i ≠ ClauseId.installRoot)
      ⟨lt_of_mem_literals hl, hs.ne_installRoot hl⟩
      (fun i why _ hwhy i' hi' => hs.causes_valid i why hwhy i' hi')
  have hk : s.clauses[j]? = some s.clauses[j] := List.getElem?_eq_getElem hlt
  refine ⟨s.clauses[j], hk, fun heq => ?_, fun k heq => ?_⟩
  · exact hne (hs.root_only j (heq ▸ hk))
  · rw [heq] at hk
    obtain ⟨learnt, hl⟩ := hs.closed j _ hk
    have hlt' : k < s.learntWhy.length := by
      rw [hs.learnt_length]
      exact (List.getElem?_eq_some_iff.mp hl).1
    have := h.causes_eq_none
    simp only [causes, hk, List.getElem?_eq_getElem hlt'] at this
    cases this

/-- On a trail of level 1 every entry but the root's is forced. -/
theorem Core.implied_of_level_one {s : SolverState N S F} (hs : s.Core)
    (hroot : Rooted s.decisionTracker) (hone : ∀ e ∈ s.decisionTracker.trail, e.level ≤ 1)
    {pre : Trail VariableId ClauseId} {e : Entry VariableId ClauseId}
    (hp : pre ++ [e] <+: s.decisionTracker.trail) :
    (pre = [] ∧ e = ⟨positive VariableId.root, 1, ClauseId.installRoot⟩) ∨
      Trail.Implied s.literals pre e := by
  rcases hs.supported pre e hp with ho | hi
  · refine .inl ?_
    have hnil : pre = [] := by
      by_contra hne
      obtain ⟨e', he'⟩ := List.exists_mem_of_ne_nil _ hne
      have h₁ := ho e' he'
      have h₂ := hone e (hp.subset (by simp))
      have h₃ := hs.tracker.pos e' (hp.subset (by simp [he']))
      omega
    subst hnil
    refine ⟨rfl, hroot e ?_⟩
    obtain ⟨rest, hrest⟩ := hp
    rw [← hrest]
    rfl
  · exact .inr hi

/-- On a trail of level 1 the reason of an entry other than the root's has the entry's literal, and the
    literals beside it are false by earlier entries. -/
theorem Core.reason_of_level_one {s : SolverState N S F} (hs : s.Core)
    (hroot : Rooted s.decisionTracker) (hone : ∀ e ∈ s.decisionTracker.trail, e.level ≤ 1)
    {pre : List Decision} {d : Decision} (hp : pre ++ [d] <+: s.decisionTracker.stack)
    (hne : d.var ≠ VariableId.root) :
    d.lit ∈ s.literals d.derivedFrom ∧
      ∀ l ∈ s.literals d.derivedFrom, l ≠ d.lit → ∃ d' ∈ pre, d'.lit = l.neg := by
  -- the stack and the trail have the same prefixes
  have htrail : (pre.map fun d => entryOf d (s.decisionTracker.level d.var)) ++
      [entryOf d (s.decisionTracker.level d.var)] <+: s.decisionTracker.trail := by
    have := hp.map fun d => entryOf d (s.decisionTracker.level d.var)
    simpa [DecisionTracker.trail, entryOf] using this
  rcases hs.implied_of_level_one hroot hone htrail with ⟨-, he⟩ | hi
  · exact absurd (congrArg (fun e => e.lit.var) he) hne
  · refine ⟨hi.mem, fun l hl hld => ?_⟩
    obtain ⟨e, he, hneg⟩ := hi.others l hl hld
    obtain ⟨d', hd', rfl⟩ := List.mem_map.mp he
    exact ⟨d', hd', hneg⟩

/-- **The reported clauses are an unsatisfiable core**: they are clauses of the problem, and no
    assignment that makes the root true satisfies all of them. -/
theorem analyzeUnsolvable_spec {s : SolverState N S F} (hs : s.Core)
    (hroot : Rooted s.decisionTracker) (hone : ∀ e ∈ s.decisionTracker.trail, e.level ≤ 1)
    {id : ClauseId} (hf : s.Falsified id) {conflict : List ClauseId}
    (h : s.analyzeUnsolvable id = some conflict) :
    (∀ j ∈ conflict, s.IsProblemClause j) ∧
      ∀ σ : VariableId → Bool, σ VariableId.root = true →
        ¬ ∀ j ∈ conflict, ClauseHolds σ (s.literals j) := by
  simp only [analyzeUnsolvable] at h
  split at h
  · cases h
  · obtain ⟨a, ha, rfl⟩ := Option.map_eq_some_iff.mp h
    obtain ⟨l₀, hl₀⟩ := List.exists_mem_of_ne_nil _ hf.1
    have hex := analyzeUnsolvableClause_spec hs.arena (s.clauses.length + 1)
      (Nat.lt_succ_of_lt (lt_of_mem_literals hl₀)) ([], []) (by simp)
    have himp := fun pre d (hp : pre ++ [d] <+: s.decisionTracker.stack) hne =>
      hs.reason_of_level_one hroot hone hp hne
    have hw := analyzeTrail_spec hs _ (by rw [List.reverse_reverse]) himp
      (fun j hj => (hex.seen j hj).resolve_left (by simp)) ha
    have hleaf : ∀ j ∈ a.conflict, ∃ i, s.literals i ≠ [] ∧ Leaf s.causes i j := by
      intro j hj
      rcases hw.leaves j hj with hj | ⟨d, -, hne, hleaf⟩
      · rcases hex.leaves j hj with hj | ⟨i, hi, hleaf⟩
        · simp at hj
        · rw [List.mem_singleton.mp hi] at hleaf
          exact ⟨id, hf.1, hleaf⟩
      · exact ⟨_, hne, hleaf⟩
    refine ⟨fun j hj => ?_, fun σ hσ hsat => ?_⟩
    · obtain ⟨i, hi, hl⟩ := hleaf j hj
      exact hs.arena.isProblemClause_of_leaf hi hl
    · have hcov : ∀ i, s.Covered a.conflict i → ClauseHolds σ (s.literals i) := fun i hi =>
        hs.arena.derivation.holds_of_leaves i fun j hj => hsat j (hi j hj)
      have hinvolved : ∀ l ∈ s.literals id, l.var ∈ a.involved := fun l hl =>
        hw.involved (List.mem_map.mpr ⟨l, hl, rfl⟩)
      have hagree := hs.supported.agrees_on (· ∈ a.involved) σ
        (fun pre e hp _ ho => by
          rcases hs.implied_of_level_one hroot hone hp with ⟨-, rfl⟩ | hi
          · exact hσ
          · -- an opening entry of level 1 has nothing before it
            have hnil : pre = [] := by
              by_contra hne
              obtain ⟨e', he'⟩ := List.exists_mem_of_ne_nil _ hne
              have h₁ := ho e' he'
              have h₂ := hone e (hp.subset (by simp))
              have h₃ := hs.tracker.pos e' (hp.subset (by simp [he']))
              omega
            subst hnil
            obtain ⟨rest, hrest⟩ := hp
            rw [hroot e (by rw [← hrest]; rfl)]
            exact hσ)
        (fun pre e hp hI hi => by
          obtain ⟨d, hd, rfl⟩ := DecisionTracker.mem_trail.mp (hp.subset (by simp) : e ∈ _)
          have hne : d.var ≠ VariableId.root := by
            intro hv
            -- the root's own entry names no clause with literals
            have hmem := hi.mem
            have hhead : ∃ e₀, s.decisionTracker.trail.head? = some e₀ := by
              obtain ⟨rest, hrest⟩ := hp
              rw [← hrest]
              cases pre <;> exact ⟨_, rfl⟩
            obtain ⟨e₀, he₀⟩ := hhead
            have he₀m : e₀ ∈ s.decisionTracker.trail := List.mem_of_head? he₀
            have hd_mem := DecisionTracker.mem_trail.mpr ⟨d, hd, rfl⟩
            have heq := hs.tracker.entry_unique hd_mem he₀m (by rw [hroot e₀ he₀]; exact hv)
            rw [heq, hroot e₀ he₀] at hmem
            exact hs.arena.ne_installRoot hmem rfl
          obtain ⟨h₁, h₂⟩ := hw.reasons d (by simpa using hd) hne hI
          exact ⟨hcov _ h₁, h₂⟩)
      obtain ⟨l, hl, hlσ⟩ := hcov id ((hex.covered id (by simp)).mono hw.conflict)
      obtain ⟨e, he, hneg⟩ := hs.tracker.eval_false_iff.mp (hf.2 l hl)
      have := hagree e he (by rw [hneg]; exact hinvolved l hl)
      rw [hneg] at this
      exact Lit.not_holds_of_neg this hlσ

/-- The walk over a trail of level 1 does not panic: the reason of an involved entry has no other true
    literal, and is not the root's. -/
theorem analyzeTrail_total {s : SolverState N S F} (hs : s.Core) (hroot : Rooted s.decisionTracker)
    (hone : ∀ e ∈ s.decisionTracker.trail, e.level ≤ 1) (ds : List Decision)
    (hpre : ds.reverse <+: s.decisionTracker.stack) (a : UnsolvableAnalysis) :
    ∃ a', s.analyzeTrail ds a = some a' := by
  induction ds generalizing a with
  | nil => exact ⟨a, rfl⟩
  | cons d rest ih =>
      rw [List.reverse_cons] at hpre
      have ih' := ih ((List.prefix_append _ _).trans hpre)
      unfold analyzeTrail
      by_cases hskip : d.var = VariableId.root ∨ d.var ∉ a.involved
      · rw [if_pos hskip]
        exact ih' a
      · rw [if_neg hskip]
        obtain ⟨hroot', -⟩ := not_or.mp hskip
        obtain ⟨hmem, hothers⟩ := hs.reason_of_level_one hroot hone hpre hroot'
        rw [if_neg (hs.arena.ne_installRoot hmem)]
        dsimp only
        have htrue : ((s.literals d.derivedFrom).filter fun l : Literal =>
            s.decisionTracker.eval l = some true).any (fun l => l.var ≠ d.var) = false := by
          rw [List.any_eq_false]
          intro l hl
          obtain ⟨hl, heval⟩ := List.mem_filter.mp hl
          by_cases hld : l = d.lit
          · simp [hld]
          · -- the other literals are false by earlier entries
            obtain ⟨d', hd', hneg⟩ := hothers l hl hld
            have hstack : d' ∈ s.decisionTracker.stack :=
              hpre.subset (List.mem_append_left _ hd')
            have hfalse : s.decisionTracker.eval l = some false :=
              hs.tracker.eval_false_iff.mpr
                ⟨_, DecisionTracker.mem_trail.mpr ⟨d', hstack, rfl⟩, hneg⟩
            simp [hfalse] at heval
        rw [htrue]
        exact ih' _

/-- **The analysis of an unsolvable problem does not panic.** -/
theorem analyzeUnsolvable_total {s : SolverState N S F} (hs : s.Core) (hroot : Rooted s.decisionTracker)
    (hone : ∀ e ∈ s.decisionTracker.trail, e.level ≤ 1) {id : ClauseId} (hf : s.Falsified id) :
    ∃ conflict, s.analyzeUnsolvable id = some conflict := by
  obtain ⟨l, hl⟩ := List.exists_mem_of_ne_nil _ hf.1
  have hne : s.decisionTracker.stack ≠ [] := by
    intro hnil
    obtain ⟨e, he, -⟩ := hs.tracker.eval_false_iff.mp (hf.2 l hl)
    rw [DecisionTracker.trail, hnil] at he
    cases he
  obtain ⟨a, ha⟩ := analyzeTrail_total hs hroot hone s.decisionTracker.stack.reverse
    (by rw [List.reverse_reverse]) ⟨(s.literals id).map Lit.var,
      (analyzeUnsolvableClause s (s.clauses.length + 1) ([], []) id).1,
      (analyzeUnsolvableClause s (s.clauses.length + 1) ([], []) id).2⟩
  refine ⟨a.conflict, ?_⟩
  unfold analyzeUnsolvable
  rw [if_neg (by simpa using hne)]
  dsimp only
  rw [ha]
  rfl

end SolverState

end Resolvo
