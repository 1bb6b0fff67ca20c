import Resolvo.Lib.Resolution
import Resolvo.Correctness.Propagation

/-!
# `Correctness.Learning` — conflict analysis derives a consequence of the clauses it visits

`analyze` walks the trail backwards and resolves the conflicting clause with the reasons of the entries
of the current level. The entries of that level it has seen but not reached yet are counted; the count
says when only one is left. The walk keeps one fact: the clauses visited so far resolve to the clause of
the seen entries that are left on the trail, each of them false.
-/

set_option linter.unusedSectionVars false

namespace Resolvo

open Sat

variable {N S F : Type} [DecidableEq N] [DecidableEq S]

namespace SolverState

/-! ## Popping -/

/-- The entry of a decision on a trail. -/
def entryOf (d : Decision) (level : Nat) : Entry VariableId ClauseId := ⟨d.lit, level, d.derivedFrom⟩

/-- `t'` is `t` without its last seen entry and everything after that. -/
structure Popped (seen : List VariableId) (t t' : DecisionTracker) (d : Decision) (level : Nat) :
    Prop where
  mem_seen : d.var ∈ seen
  rewound : t.Rewound t'
  prefix_ : t'.trail ++ [entryOf d level] <+: t.trail
  /-- A seen entry is left or is the popped one. -/
  split : ∀ e ∈ t.trail, e.lit.var ∈ seen → e ∈ t'.trail ∨ e = entryOf d level
  /-- What was popped is not below the popped seen entry. -/
  above : ∀ e ∈ t.trail, e ∈ t'.trail ∨ level ≤ e.level
  out : ∀ e ∈ t'.trail, e.lit.var ≠ d.var
  below : ∀ e ∈ t'.trail, e.level ≤ level

theorem Popped.mem {seen : List VariableId} {t t' : DecisionTracker} {d : Decision} {level : Nat}
    (h : Popped seen t t' d level) : entryOf d level ∈ t.trail := h.prefix_.subset (by simp)

theorem Popped.sub {seen : List VariableId} {t t' : DecisionTracker} {d : Decision} {level : Nat}
    (h : Popped seen t t' d level) : ∀ e ∈ t'.trail, e ∈ t.trail :=
  fun _ he => h.rewound.trail.subset he

theorem Popped.of_trail {seen : List VariableId} {t t' : DecisionTracker} {d : Decision}
    {level : Nat} {rest : Trail VariableId ClauseId} (h : t.WF) (hrw : t.Rewound t')
    (hseen : d.var ∈ seen) (htrail : t.trail = t'.trail ++ entryOf d level :: rest)
    (hrest : ∀ e ∈ rest, e.lit.var ∉ seen) : Popped seen t t' d level := by
  have hsorted := h.sorted
  rw [htrail] at hsorted
  obtain ⟨-, hafter, hbefore⟩ := List.pairwise_append.mp hsorted
  refine ⟨hseen, hrw, ⟨rest, by rw [htrail]; simp⟩, ?_, ?_, ?_, ?_⟩
  · intro e he hv
    rw [htrail] at he
    rcases List.mem_append.mp he with he | he
    · exact .inl he
    · rcases List.mem_cons.mp he with he | he
      · exact .inr he
      · exact absurd hv (hrest e he)
  · intro e he
    rw [htrail] at he
    rcases List.mem_append.mp he with he | he
    · exact .inl he
    · rcases List.mem_cons.mp he with rfl | he
      · exact .inr le_rfl
      · exact .inr ((List.pairwise_cons.mp hafter).1 e he)
  · intro e he hv
    have hnd := h.vars_nodup
    rw [htrail, List.map_append, List.nodup_append] at hnd
    exact hnd.2.2 _ (List.mem_map.mpr ⟨e, he, rfl⟩) d.var (by simp [entryOf]) hv
  · exact fun e he => hbefore e he _ List.mem_cons_self

theorem popUntilSeen_spec {seen : List VariableId} (fuel : Nat) {t t' : DecisionTracker}
    {d : Decision} {top : Nat} (h : t.WF) (hp : popUntilSeen seen fuel t = some (d, top, t')) :
    ∃ level, Popped seen t t' d level ∧ ∃ e, t'.trail.getLast? = some e ∧ e.level = top := by
  suffices hs : t.Rewound t' ∧ d.var ∈ seen ∧ (∃ e, t'.trail.getLast? = some e ∧ e.level = top) ∧
      ∃ level rest, t.trail = t'.trail ++ entryOf d level :: rest ∧ ∀ e ∈ rest, e.lit.var ∉ seen by
    obtain ⟨hrw, hseen, htop, level, rest, htrail, hrest⟩ := hs
    exact ⟨level, .of_trail h hrw hseen htrail hrest, htop⟩
  induction fuel generalizing t with
  | zero => cases hp
  | succ fuel ih =>
      simp only [popUntilSeen] at hp
      split at hp
      · cases hp
      · next d₁ level₁ t₁ hundo =>
          obtain ⟨htrail, hrw, -, htop⟩ := DecisionTracker.undoLast_spec h hundo
          split at hp
          · next hseen =>
              simp only [Option.some.injEq, Prod.mk.injEq] at hp
              obtain ⟨rfl, rfl, rfl⟩ := hp
              exact ⟨hrw, hseen, htop, _, [], htrail, by simp⟩
          · next hunseen =>
              obtain ⟨hrw', hseen, htop', level, rest, htrail', hrest⟩ := ih hrw.wf hp
              refine ⟨hrw.trans hrw', hseen, htop', level,
                rest ++ [entryOf d₁ (t.level d₁.var)], ?_, ?_⟩
              · rw [htrail, htrail']
                simp [entryOf]
              · intro e he
                rcases List.mem_append.mp he with he | he
                · exact hrest e he
                · rw [List.mem_singleton.mp he]
                  exact hunseen

/-! ## The accumulators -/

/-- What the accumulators say about the trail: the seen entries of the current level are counted, the
    seen entries of lower levels are listed with their literal. -/
structure Collected (t : DecisionTracker) (level : Nat) (a : Analysis) : Prop where
  counted : ∃ pending : List VariableId, pending.Nodup ∧ pending.length = a.causesAtCurrentLevel ∧
    ∀ v, v ∈ pending ↔ v ∈ a.seen ∧ ∃ e ∈ t.trail, e.lit.var = v ∧ e.level = level
  listed : ∀ e ∈ t.trail, e.lit.var ∈ a.seen → e.level ≠ level → e.lit.neg ∈ a.learnt
  learnt : ∀ l ∈ a.learnt, l.var ∈ a.seen ∧
    ∃ e ∈ t.trail, e.lit = l.neg ∧ e.level < level ∧ e.level ≤ a.backTrackTo
  back : a.backTrackTo < level
  nodup : (a.learnt.map Lit.var).Nodup
  /-- The recorded position holds a literal of the recorded level. -/
  highest : (a.learnt = [] ∧ a.backTrackTo = 0) ∨ ∃ l, a.learnt[a.highestLevelIdx]? = some l ∧
    ∃ e ∈ t.trail, e.lit = l.neg ∧ e.level = a.backTrackTo

theorem analyzeLiteral_spec {t : DecisionTracker} {level : Nat} {ignored : Option VariableId}
    {a a' : Analysis} {l : Literal} (ht : t.WF) (hb : ∀ e ∈ t.trail, e.level ≤ level)
    (hc : Collected t level a) (hl : ignored ≠ some l.var → t.trail.Falsifies l)
    (h : analyzeLiteral t level ignored a l = some a') :
    Collected t level a' ∧ a.seen ⊆ a'.seen ∧ (ignored ≠ some l.var → l.var ∈ a'.seen) ∧
      ∀ v ∈ a'.seen, v ∈ a.seen ∨ (ignored ≠ some l.var ∧ v = l.var) := by
  simp only [analyzeLiteral] at h
  split at h
  · next hig =>
      simp only [Option.some.injEq] at h
      subst h
      exact ⟨hc, fun _ hv => hv, fun hne => absurd hig hne, fun _ hv => .inl hv⟩
  · next hig =>
      obtain ⟨e, he, hneg⟩ := hl hig
      have hvar : e.lit.var = l.var := by rw [hneg]; rfl
      have hlevel : t.level l.var = e.level := by
        rw [← hvar]; exact DecisionTracker.level_of_mem_trail he
      have honly : ∀ e' ∈ t.trail, e'.lit.var = l.var → e' = e := fun e' he' hv =>
        ht.entry_unique he' he (hv.trans hvar.symm)
      split at h
      · next hseen =>
          simp only [Option.some.injEq] at h
          subst h
          exact ⟨hc, fun _ hv => hv, fun _ => hseen, fun _ hv => .inl hv⟩
      · next hseen =>
          have hfrom : ∀ v ∈ a.seen ++ [l.var], v ∈ a.seen ∨ (ignored ≠ some l.var ∧ v = l.var) :=
            fun v hv => (List.mem_append.mp hv).imp_right fun hv => ⟨hig, List.mem_singleton.mp hv⟩
          obtain ⟨pending, hnd, hlen, hmem⟩ := hc.counted
          split at h
          · -- a cause at the current level
            next hcur =>
              simp only [Option.some.injEq] at h
              subst h
              refine ⟨⟨⟨pending ++ [l.var], ?_, by simp [hlen], ?_⟩, ?_,
                fun l' hl' => ⟨List.mem_append_left _ (hc.learnt l' hl').1, (hc.learnt l' hl').2⟩,
                hc.back, hc.nodup, hc.highest⟩, (fun v hv => by simp [hv]), (fun _ => by simp), hfrom⟩
              · refine List.nodup_append.mpr ⟨hnd, List.nodup_singleton _, ?_⟩
                intro v hv w hw hvw
                rw [List.mem_singleton.mp hw] at hvw
                exact hseen (hvw ▸ ((hmem v).mp hv).1)
              · intro v
                simp only [List.mem_append, List.mem_singleton, hmem]
                constructor
                · rintro (⟨hv, hex⟩ | rfl)
                  · exact ⟨.inl hv, hex⟩
                  · exact ⟨.inr rfl, e, he, hvar, hlevel ▸ hcur⟩
                · rintro ⟨hv | rfl, hex⟩
                  · exact .inl ⟨hv, hex⟩
                  · exact .inr rfl
              · intro e' he' hv hne
                rcases List.mem_append.mp hv with hv | hv
                · exact hc.listed e' he' hv hne
                · rw [honly e' he' (List.mem_singleton.mp hv)] at hne
                  exact absurd (hlevel ▸ hcur) hne
          · next hcur =>
              have hlt : e.level < level :=
                Nat.lt_of_le_of_ne (hb e he) (fun h' => hcur (hlevel.trans h'))
              split at h
              · -- a literal of a lower level
                split at h
                · cases h
                · next value hvalue =>
                    simp only [Option.some.injEq] at h
                    have hlit : (⟨l.var, value⟩ : Literal) = e.lit.neg := by
                      obtain ⟨e', he', hl'⟩ := ht.assignedValue_iff.mp hvalue
                      have : e' = e := honly e' he' (by rw [hl'])
                      rw [← this, hl']
                      simp [Lit.neg]
                    subst h
                    have hcounted : ∀ v, v ∈ pending ↔
                        v ∈ a.seen ++ [l.var] ∧ ∃ e ∈ t.trail, e.lit.var = v ∧ e.level = level := by
                      intro v
                      rw [hmem, List.mem_append, List.mem_singleton]
                      constructor
                      · rintro ⟨hv, hex⟩
                        exact ⟨.inl hv, hex⟩
                      · rintro ⟨hv | rfl, e', he', hv', hlev⟩
                        · exact ⟨hv, e', he', hv', hlev⟩
                        · rw [honly e' he' hv'] at hlev
                          omega
                    have hlisted : ∀ e' ∈ t.trail, e'.lit.var ∈ a.seen ++ [l.var] →
                        e'.level ≠ level → e'.lit.neg ∈ a.learnt ++ [⟨l.var, value⟩] := by
                      intro e' he' hv hne
                      rcases List.mem_append.mp hv with hv | hv
                      · exact List.mem_append_left _ (hc.listed e' he' hv hne)
                      · rw [honly e' he' (List.mem_singleton.mp hv), hlit]
                        simp
                    have hlearnt : ∀ back, a.backTrackTo ≤ back → e.level ≤ back →
                        ∀ l' ∈ a.learnt ++ [⟨l.var, value⟩], l'.var ∈ a.seen ++ [l.var] ∧
                          ∃ e ∈ t.trail, e.lit = l'.neg ∧ e.level < level ∧ e.level ≤ back := by
                      intro back hback hel l' hl'
                      rcases List.mem_append.mp hl' with hl' | hl'
                      · obtain ⟨hv, e', he', hn, hlt', hle⟩ := hc.learnt l' hl'
                        exact ⟨List.mem_append_left _ hv, e', he', hn, hlt', hle.trans hback⟩
                      · rw [List.mem_singleton.mp hl']
                        exact ⟨by simp, e, he, by rw [hlit]; simp, hlt, hel⟩
                    have hsub : a.seen ⊆ a.seen ++ [l.var] := fun v hv => List.mem_append_left _ hv
                    have hnodup : ((a.learnt ++ [(⟨l.var, value⟩ : Literal)]).map Lit.var).Nodup := by
                      rw [List.map_append, List.nodup_append]
                      refine ⟨hc.nodup, List.nodup_singleton _, ?_⟩
                      intro v hv w hw hvw
                      obtain ⟨l', hl', rfl⟩ := List.mem_map.mp hv
                      rw [List.mem_singleton.mp hw] at hvw
                      exact hseen (hvw ▸ (hc.learnt l' hl').1)
                    by_cases hup : t.level l.var > a.backTrackTo
                    · simp only [hup, if_true]
                      refine ⟨⟨⟨pending, hnd, hlen, hcounted⟩, hlisted,
                        hlearnt _ (Nat.le_of_lt hup) hlevel.ge, hlevel ▸ hlt, hnodup, .inr ?_⟩, hsub,
                        (fun _ => by simp), hfrom⟩
                      exact ⟨⟨l.var, value⟩, List.getElem?_concat_length, e, he, by rw [hlit]; simp,
                        hlevel.symm⟩
                    · simp only [hup, if_false]
                      refine ⟨⟨⟨pending, hnd, hlen, hcounted⟩, hlisted,
                        hlearnt _ le_rfl (hlevel ▸ Nat.not_lt.mp hup), hc.back, hnodup, .inr ?_⟩, hsub,
                        (fun _ => by simp), hfrom⟩
                      rcases hc.highest with ⟨-, hzero⟩ | ⟨l', hl', hex⟩
                      · have hpos := ht.pos e he
                        omega
                      · refine ⟨l', ?_, hex⟩
                        rw [List.getElem?_append_left (List.getElem?_eq_some_iff.mp hl').1]
                        exact hl'
              · cases h

theorem analyzeLiterals_spec {t : DecisionTracker} {level : Nat} {ignored : Option VariableId}
    (ht : t.WF) (hb : ∀ e ∈ t.trail, e.level ≤ level) (ls : List Literal) {a a' : Analysis}
    (hc : Collected t level a) (hl : ∀ l ∈ ls, ignored ≠ some l.var → t.trail.Falsifies l)
    (h : ls.foldlM (analyzeLiteral t level ignored) a = some a') :
    Collected t level a' ∧ a.seen ⊆ a'.seen ∧
      (∀ l ∈ ls, ignored ≠ some l.var → l.var ∈ a'.seen) ∧
      ∀ v ∈ a'.seen, v ∈ a.seen ∨ ∃ l ∈ ls, ignored ≠ some l.var ∧ v = l.var := by
  induction ls generalizing a with
  | nil =>
      simp only [List.foldlM_nil, Option.pure_def, Option.some.injEq] at h
      subst h
      exact ⟨hc, fun _ hv => hv, by simp, fun _ hv => .inl hv⟩
  | cons l ls ih =>
      simp only [List.foldlM_cons, Option.bind_eq_bind, Option.bind_eq_some_iff] at h
      obtain ⟨a₁, h₁, h₂⟩ := h
      obtain ⟨hc₁, hsub₁, hl₁, hfrom₁⟩ := analyzeLiteral_spec ht hb hc (hl l (by simp)) h₁
      obtain ⟨hc₂, hsub₂, hl₂, hfrom₂⟩ := ih hc₁ (fun l' hl' => hl l' (by simp [hl'])) h₂
      refine ⟨hc₂, fun v hv => hsub₂ (hsub₁ hv), fun l' hl' hne => ?_, fun v hv => ?_⟩
      · rcases List.mem_cons.mp hl' with rfl | hl'
        · exact hsub₂ (hl₁ hne)
        · exact hl₂ l' hl' hne
      · rcases hfrom₂ v hv with hv | ⟨l', hl', hne, rfl⟩
        · exact (hfrom₁ v hv).imp_right fun ⟨hne, heq⟩ => ⟨l, List.mem_cons_self, hne, heq⟩
        · exact .inr ⟨l', List.mem_cons_of_mem _ hl', hne, rfl⟩

/-! ## The loop -/

/-- The literals of the seen entries that are left on a trail. -/
def leftOver (t : DecisionTracker) (seen : List VariableId) : Set Literal :=
  {m | m.var ∈ seen ∧ t.trail.Falsifies m}

/-- The clauses visited so far resolve to the literals that are left and one more, which the next clause
    resolves away. -/
structure Resolves (s : SolverState N S F) (t : DecisionTracker) (ignored : Option VariableId)
    (id : ClauseId) (seen : List VariableId) (why : List ClauseId) (l : Literal) : Prop where
  ignored : ignored = some l.var
  mem : l ∈ s.literals id
  popped : ∀ e ∈ t.trail, e.lit.var ≠ l.var
  others : ∀ m ∈ s.literals id, m ≠ l → t.trail.Falsifies m
  chain : Chain s.literals why {m | m = l.neg ∨ m ∈ leftOver t seen}

/-- The loop of `analyze` is about to visit clause `id`. -/
structure AnalysisInv (s : SolverState N S F) (t : DecisionTracker) (level : Nat)
    (ignored : Option VariableId) (id : ClauseId) (a : Analysis) (why : List ClauseId) : Prop where
  rewound : s.decisionTracker.Rewound t
  bounded : ∀ e ∈ t.trail, e.level ≤ level
  nonempty : s.literals id ≠ []
  falsified : ∀ l ∈ s.literals id, ignored ≠ some l.var → t.trail.Falsifies l
  collected : Collected t level a
  why_nonempty : ∀ i ∈ why, s.literals i ≠ []
  resolves : (why = [] ∧ ignored = none ∧ a.seen = []) ∨
    ∃ l, Resolves s t ignored id a.seen why l

/-- What the loop of `analyze` returns. -/
structure AnalysisOk (s : SolverState N S F) (level : Nat) (r : AnalysisResult) : Prop where
  rewound : s.decisionTracker.Rewound r.tracker
  unassigned : r.tracker.assignedValue r.decision.var = none
  back : r.analysis.backTrackTo < level
  learnt : ∀ l ∈ r.analysis.learnt, l ≠ ⟨r.decision.var, r.decision.value⟩ →
    ∃ e ∈ r.tracker.trail, e.lit = l.neg ∧ e.level ≤ r.analysis.backTrackTo
  why_nonempty : ∀ i ∈ r.learntWhy, s.literals i ≠ []
  chain : Chain s.literals r.learntWhy
    {m | m ∈ r.analysis.learnt ++ [⟨r.decision.var, r.decision.value⟩]}

/-- The literals that were visited are seen, so the visited clauses resolve to the literals that are
    left. -/
theorem AnalysisInv.visited {s : SolverState N S F} {t : DecisionTracker} {level : Nat}
    {ignored : Option VariableId} {id : ClauseId} {a a' : Analysis} {why : List ClauseId}
    (h : AnalysisInv s t level ignored id a why) (hsub : a.seen ⊆ a'.seen)
    (hseen : ∀ l ∈ s.literals id, ignored ≠ some l.var → l.var ∈ a'.seen)
    (hfrom : ∀ v ∈ a'.seen, v ∈ a.seen ∨ ∃ l ∈ s.literals id, ignored ≠ some l.var ∧ v = l.var) :
    Chain s.literals (why ++ [id]) (leftOver t a'.seen) := by
  have hnew : ∀ m ∈ s.literals id, ignored ≠ some m.var → m ∈ leftOver t a'.seen :=
    fun m hm hne => ⟨hseen m hm hne, h.falsified m hm hne⟩
  -- a seen literal is one that was left or one of the clause
  have hold : ∀ m ∈ leftOver t a'.seen, m ∈ leftOver t a.seen ∨
      (m ∈ s.literals id ∧ ignored ≠ some m.var) := by
    rintro m ⟨hv, hf⟩
    rcases hfrom m.var hv with hv | ⟨l, hl, hne, heq⟩
    · exact .inl ⟨hv, hf⟩
    · obtain rfl := h.rewound.wf.falsifies_unique hf (h.falsified l hl hne) heq
      exact .inr ⟨hl, hne⟩
  rcases h.resolves with ⟨rfl, rfl, hnil⟩ | ⟨l, hr⟩
  · have hset : leftOver t a'.seen = {m | m ∈ s.literals id} := by
      ext m
      refine ⟨fun hm => ?_, fun hm => hnew m hm (by simp)⟩
      rcases hold m hm with ⟨hv, -⟩ | ⟨hm, -⟩
      · rw [hnil] at hv
        cases hv
      · exact hm
    rw [hset]
    exact .start id
  · have hne : ∀ m ∈ leftOver t a.seen, m ≠ l.neg := by
      rintro m ⟨-, e, he, hneg⟩ rfl
      exact hr.popped e he (by rw [hneg]; rfl)
    have hset : leftOver t a'.seen = {m | (m ∈ {m | m = l.neg ∨ m ∈ leftOver t a.seen} ∧
        m ≠ l.neg) ∨ (m ∈ s.literals id ∧ m ≠ l)} := by
      ext m
      constructor
      · intro hm
        rcases hold m hm with hm | ⟨hm, hig⟩
        · exact .inl ⟨.inr hm, hne m hm⟩
        · refine .inr ⟨hm, ?_⟩
          rintro rfl
          exact hig hr.ignored
      · rintro (⟨hm | ⟨hv, hf⟩, hml⟩ | ⟨hm, hml⟩)
        · exact absurd hm hml
        · exact ⟨hsub hv, hf⟩
        · refine hnew m hm fun hig => ?_
          -- the variable resolved on is not assigned, and the other literals of the reason are false
          obtain ⟨e, he, hneg⟩ := hr.others m hm hml
          refine hr.popped e he ?_
          rw [hneg]
          exact (Option.some.inj (hr.ignored.symm.trans hig)).symm
    rw [hset]
    exact .resolve hr.chain id l hr.mem (.inl rfl)

section Loop

variable {s : SolverState N S F} {t t' : DecisionTracker} {level dl : Nat}
  {ignored : Option VariableId} {id : ClauseId} {a : Analysis} {why : List ClauseId} {d : Decision}

/-- What is left before popping is the popped literal and what is left after it. -/
theorem Popped.leftOver (hp : Popped a.seen t t' d dl) :
    leftOver t a.seen = {m | m = d.lit.neg ∨ m ∈ leftOver t' a.seen} := by
  ext m
  constructor
  · rintro ⟨hv, e, he, hneg⟩
    have hev : e.lit.var ∈ a.seen := by rw [hneg]; exact hv
    rcases hp.split e he hev with he | rfl
    · exact .inr ⟨hv, e, he, hneg⟩
    · left
      rw [← Lit.neg_neg m, ← hneg]
      rfl
  · rintro (rfl | ⟨hv, hf⟩)
    · exact ⟨hp.mem_seen, _, hp.mem, (Lit.neg_neg _).symm⟩
    · exact ⟨hv, hf.mono fun e he => hp.sub e he⟩

/-- The count is down to the popped entry: every seen entry that is left is at a lower level. -/
theorem Collected.low_of_zero (hc : Collected t level a) (hb : ∀ e ∈ t.trail, e.level ≤ level)
    (hp : Popped a.seen t t' d dl) (hzero : a.causesAtCurrentLevel - 1 = 0) :
    ∀ e ∈ t'.trail, e.lit.var ∈ a.seen → e.level ≠ level := by
  intro e he hv hlev
  obtain ⟨pending, hnd, hlen, hmem⟩ := hc.counted
  have hdl : dl = level := Nat.le_antisymm (hb _ hp.mem) (hlev ▸ hp.below e he)
  have h₁ : e.lit.var ∈ pending := (hmem _).mpr ⟨hv, e, hp.sub e he, rfl, hlev⟩
  have h₂ : d.var ∈ pending := (hmem _).mpr ⟨hp.mem_seen, _, hp.mem, rfl, hdl⟩
  have h₃ : e.lit.var ∈ pending.erase d.var := (hnd.mem_erase_iff).mpr ⟨hp.out e he, h₁⟩
  have h₄ := List.length_pos_of_mem h₃
  rw [List.length_erase_of_mem h₂, hlen] at h₄
  exact absurd hzero (Nat.pos_iff_ne_zero.mp h₄)

/-- The count is not down yet: another seen entry of the level is left below the popped one. -/
theorem Collected.another (hc : Collected t level a) (hp : Popped a.seen t t' d dl)
    (hnonzero : a.causesAtCurrentLevel - 1 ≠ 0) :
    ∃ e ∈ t'.trail, e.level = level ∧ e.lit.var ∈ a.seen := by
  obtain ⟨pending, hnd, hlen, hmem⟩ := hc.counted
  have hlen' : (pending.erase d.var).length ≠ 0 := by
    have := List.le_length_erase (a := d.var) (l := pending)
    omega
  obtain ⟨v, hv⟩ := List.exists_mem_of_length_pos (Nat.pos_of_ne_zero hlen')
  obtain ⟨hvd, hvp⟩ := (hnd.mem_erase_iff).mp hv
  obtain ⟨hvseen, e, he, hev, hel⟩ := (hmem v).mp hvp
  rcases hp.split e he (hev ▸ hvseen) with he | rfl
  · exact ⟨e, he, hel, hev ▸ hvseen⟩
  · exact absurd hev.symm hvd

/-- The end of the trail after popping is at the level of any entry of the popped level. -/
theorem Popped.top_level (hp : Popped a.seen t t' d dl) {e₀ e : Entry VariableId ClauseId}
    (he₀ : e₀ ∈ t'.trail) (hel₀ : e₀.level = dl) (htop : t'.trail.getLast? = some e) :
    e.level = dl := by
  refine Nat.le_antisymm (hp.below e (List.mem_of_getLast? htop)) ?_
  have hsorted := hp.rewound.wf.sorted
  rw [← List.dropLast_append_getLast? e htop] at hsorted he₀
  rcases List.mem_append.mp he₀ with he | he
  · exact hel₀ ▸ (List.pairwise_append.mp hsorted).2.2 e₀ he e (by simp)
  · rw [← List.mem_singleton.mp he, hel₀]

/-- The end of the loop. -/
theorem AnalysisInv.finish (hinv : AnalysisInv s t level ignored id a why) {a' : Analysis}
    (hc : Collected t level a') (hp : Popped a'.seen t t' d dl)
    (hwhy : ∀ i ∈ why ++ [id], s.literals i ≠ [])
    (hchain : Chain s.literals (why ++ [id]) (leftOver t a'.seen))
    (hlow : ∀ e ∈ t'.trail, e.lit.var ∈ a'.seen → e.level ≠ level) (n : Nat) :
    AnalysisOk s level ⟨d, { a' with causesAtCurrentLevel := n }, why ++ [id], t'⟩ := by
  refine ⟨hinv.rewound.trans hp.rewound, hp.rewound.wf.assignedValue_none_iff.mpr hp.out, hc.back,
    ?_, hwhy, ?_⟩
  · intro l hl hne
    obtain ⟨hv, e, he, hneg, -, hle⟩ := hc.learnt l hl
    have hev : e.lit.var ∈ a'.seen := by rw [hneg]; exact hv
    rcases hp.split e he hev with he | rfl
    · exact ⟨e, he, hneg, hle⟩
    · refine absurd ?_ hne
      rw [← Lit.neg_neg l, ← hneg]
      simp [entryOf, Decision.lit, Lit.neg]
  · -- what is left are the listed literals and the one that was popped
    have hdneg : d.lit.neg = ⟨d.var, d.value⟩ := by simp [Decision.lit, Lit.neg]
    have hset : leftOver t a'.seen = {m | m ∈ a'.learnt ++ [(⟨d.var, d.value⟩ : Literal)]} := by
      ext m
      constructor
      · intro hm
        rw [hp.leftOver] at hm
        rcases hm with rfl | ⟨hv, e, he, hneg⟩
        · exact List.mem_append_right _ (by rw [hdneg]; simp)
        · have hev : e.lit.var ∈ a'.seen := by rw [hneg]; exact hv
          have := hc.listed e (hp.sub e he) hev (hlow e he hev)
          rw [hneg, Lit.neg_neg] at this
          exact List.mem_append_left _ this
      · intro hm
        rcases List.mem_append.mp hm with hm | hm
        · obtain ⟨hv, e, he, hneg, -⟩ := hc.learnt m hm
          exact ⟨hv, e, he, hneg⟩
        · rw [List.mem_singleton.mp hm, ← hdneg]
          exact ⟨hp.mem_seen, _, hp.mem, (Lit.neg_neg _).symm⟩
    exact hset ▸ hchain

/-- The loop goes on with the reason of the popped entry. -/
theorem AnalysisInv.continue_ (hs : s.Core) (hinv : AnalysisInv s t level ignored id a why)
    {a' : Analysis} (hc : Collected t level a') (hp : Popped a'.seen t t' d level)
    (hwhy : ∀ i ∈ why ++ [id], s.literals i ≠ [])
    (hchain : Chain s.literals (why ++ [id]) (leftOver t a'.seen))
    (hother : ∃ e ∈ t'.trail, e.level = level) :
    AnalysisInv s t' level (some d.var) d.derivedFrom
      { a' with causesAtCurrentLevel := a'.causesAtCurrentLevel - 1 } (why ++ [id]) := by
  obtain ⟨e₀, he₀, hel₀⟩ := hother
  -- an entry of the same level is below the popped one, which therefore opens nothing
  have himplied : Trail.Implied s.literals t'.trail (entryOf d level) := by
    rcases hs.supported _ _ (hp.prefix_.trans hinv.rewound.trail) with ho | hi
    · exact absurd (ho e₀ he₀) (by simp [entryOf, hel₀])
    · exact hi
  obtain ⟨pending, hnd, hlen, hmem⟩ := hc.counted
  have hdp : d.var ∈ pending := (hmem _).mpr ⟨hp.mem_seen, _, hp.mem, rfl, rfl⟩
  have hcollected : Collected t' level
      { a' with causesAtCurrentLevel := a'.causesAtCurrentLevel - 1 } := by
    have hkeep : ∀ e ∈ t.trail, e.lit.var ∈ a'.seen → e.level < level → e ∈ t'.trail := by
      intro e he hv hlt
      rcases hp.split e he hv with he | rfl
      · exact he
      · exact absurd hlt (Nat.lt_irrefl _)
    refine ⟨⟨pending.erase d.var, hnd.erase _, ?_, ?_⟩, fun e he => hc.listed e (hp.sub e he), ?_,
      hc.back, hc.nodup, ?_⟩
    · rw [List.length_erase_of_mem hdp, hlen]
    · intro v
      rw [hnd.mem_erase_iff, hmem]
      constructor
      · rintro ⟨hne, hv, e, he, hev, hel⟩
        refine ⟨hv, e, ?_, hev, hel⟩
        rcases hp.split e he (hev ▸ hv) with he | rfl
        · exact he
        · exact absurd hev.symm hne
      · rintro ⟨hv, e, he, hev, hel⟩
        exact ⟨hev ▸ hp.out e he, hv, e, hp.sub e he, hev, hel⟩
    · intro l hl
      obtain ⟨hv, e, he, hneg, hlt, hle⟩ := hc.learnt l hl
      exact ⟨hv, e, hkeep e he (by rw [hneg]; exact hv) hlt, hneg, hlt, hle⟩
    · rcases hc.highest with hnone | ⟨l, hl, e, he, hneg, hel⟩
      · exact .inl hnone
      · refine .inr ⟨l, hl, e, hkeep e he ?_ ?_, hneg, hel⟩
        · rw [hneg]
          exact (hc.learnt l (List.mem_of_getElem? hl)).1
        · rw [hel]
          exact hc.back
  refine ⟨hinv.rewound.trans hp.rewound, fun e he => hinv.bounded e (hp.sub e he),
    List.ne_nil_of_mem himplied.mem, ?_, hcollected, hwhy, .inr ⟨d.lit, rfl, himplied.mem, hp.out,
      himplied.others, ?_⟩⟩
  · intro l hl hne
    refine himplied.others l hl fun hld => hne ?_
    rw [hld]
    rfl
  · exact hp.leftOver ▸ hchain

/-- The clauses visited so far are not empty. -/
theorem AnalysisInv.why_ne_nil (hinv : AnalysisInv s t level ignored id a why) :
    ∀ i ∈ why ++ [id], s.literals i ≠ [] := by
  intro i hi
  rcases List.mem_append.mp hi with hi | hi
  · exact hinv.why_nonempty i hi
  · rw [List.mem_singleton.mp hi]
    exact hinv.nonempty

/-- **The loop of `analyze` derives a clause that is false except for one unassigned literal.** -/
theorem analyzeLoop_spec (hs : s.Core) (fuel : Nat) {r : AnalysisResult}
    (hinv : AnalysisInv s t level ignored id a why)
    (h : s.analyzeLoop fuel t level ignored id a why = some r) : AnalysisOk s level r := by
  induction fuel generalizing t ignored id a why with
  | zero => cases h
  | succ fuel ih =>
      simp only [analyzeLoop] at h
      split at h
      · cases h
      · next a₁ hvisit =>
          obtain ⟨hc, hsub, hseen, hfrom⟩ := analyzeLiterals_spec hinv.rewound.wf hinv.bounded _
            hinv.collected hinv.falsified hvisit
          split at h
          · cases h
          · next d top t' hpop =>
              obtain ⟨dl, hp, e, htop, hetop⟩ := popUntilSeen_spec _ hinv.rewound.wf hpop
              have hchain := hinv.visited hsub hseen hfrom
              split at h
              · next hzero =>
                  simp only [Option.some.injEq] at h
                  subst h
                  exact hinv.finish hc hp hinv.why_ne_nil hchain
                    (hc.low_of_zero hinv.bounded hp hzero) _
              · next hnonzero =>
                  obtain ⟨e₀, he₀, hel₀, -⟩ := hc.another hp hnonzero
                  obtain rfl : dl = level :=
                    Nat.le_antisymm (hinv.bounded _ hp.mem) (hel₀ ▸ hp.below e₀ he₀)
                  obtain rfl : top = dl := hetop ▸ hp.top_level he₀ hel₀ htop
                  exact ih (hinv.continue_ hs hc hp hinv.why_ne_nil hchain ⟨e₀, he₀, hel₀⟩) h

end Loop

/-! ## The learnt clause -/

theorem swapFront_perm (l : List Literal) (i : Nat) : (swapFront l i).Perm l := by
  unfold swapFront
  split
  · next a b ha hb =>
      obtain ⟨hlen, rfl⟩ := List.getElem?_eq_some_iff.mp ha
      obtain ⟨hi, rfl⟩ := List.getElem?_eq_some_iff.mp hb
      exact List.set_set_perm hlen hi
  · exact .refl l

theorem mem_swapFront {l : List Literal} {i : Nat} {x : Literal} : x ∈ swapFront l i ↔ x ∈ l :=
  (swapFront_perm l i).mem_iff

theorem bumpActivity_same (P : DependencyProvider N S) (A : ActivityParams F)
    (s : SolverState N S F) (l : Literal) : SameSearch s (s.bumpActivity P A l) := by
  simp only [bumpActivity]
  split
  · exact .refl s
  · exact ⟨⟨List.prefix_refl _, List.prefix_refl _, List.prefix_refl _, List.prefix_refl _,
      fun _ _ h => h⟩, rfl, rfl, rfl, rfl, rfl, rfl, rfl, rfl, rfl⟩

theorem SameSearch.trans {s s' s'' : SolverState N S F} (h : SameSearch s s')
    (h' : SameSearch s' s'') : SameSearch s s'' :=
  ⟨h.extends_.trans h'.extends_, h'.clauses.trans h.clauses,
    h'.watchedLiterals.trans h.watchedLiterals, h'.watches.trans h.watches,
    h'.negativeAssertions.trans h.negativeAssertions, h'.learntClauses.trans h.learntClauses,
    h'.learntWhy.trans h.learntWhy, h'.learntClauseIds.trans h.learntClauseIds,
    h'.requirers.trans h.requirers, h'.decisionTracker.trans h.decisionTracker⟩

theorem bumpAll_same (P : DependencyProvider N S) (A : ActivityParams F) (s : SolverState N S F)
    (ls : List Literal) : SameSearch s (ls.foldl (bumpActivity P A) s) :=
  List.foldl_rule (SameSearch s) ls (.refl s)
    fun s' l _ h => h.trans (bumpActivity_same P A s' l)

/-- The state with a learnt clause recorded, before it is in the arena. -/
def recordLearnt (s : SolverState N S F) (literals : List Literal) (why : List ClauseId) :
    SolverState N S F :=
  { s with
    learntClauses := s.learntClauses ++ [literals]
    learntWhy := s.learntWhy ++ [why] }

theorem recordLearnt_extends (s : SolverState N S F) (literals : List Literal)
    (why : List ClauseId) : Extends s (s.recordLearnt literals why) :=
  ⟨List.prefix_refl _, List.prefix_append _ _, List.prefix_append _ _, List.prefix_refl _,
    fun _ _ h => h⟩

theorem recordLearnt_literals {s : SolverState N S F} (h : s.Arena) (literals : List Literal)
    (why : List ClauseId) (id : ClauseId) :
    (s.recordLearnt literals why).literals id = s.literals id := by
  by_cases hid : id < s.clauses.length
  · exact h.literals_extends (recordLearnt_extends s literals why) hid
  · have hge := Nat.not_lt.mp hid
    rw [literals_of_ge hge]
    exact literals_of_ge hge

theorem Arena.recordLearnt {s : SolverState N S F} (h : s.Arena) (literals : List Literal)
    (why : List ClauseId) : (s.recordLearnt literals why).Arena := by
  have he := recordLearnt_extends s literals why
  have hlit := recordLearnt_literals h literals why
  have hcauses : ∀ id, (s.recordLearnt literals why).causes id = s.causes id := by
    intro id
    by_cases hid : id < s.clauses.length
    · exact h.causes_extends he hid
    · have hge := Nat.not_lt.mp hid
      rw [causes_of_ge hge]
      exact causes_of_ge hge
  constructor
  case root => exact h.root
  case root_only => exact h.root_only
  case closed => exact fun id kind hk => (h.closed id kind hk).extends he
  case watched_length => exact h.watched_length
  case watched =>
    intro id kind w hk hw
    rw [(h.closed id kind hk).kindLiterals_eq he]
    exact h.watched id kind w hk hw
  case watches => exact h.watches
  case assertions =>
    intro a ha
    rw [hlit]
    exact h.assertions a ha
  case learnt_length => simp [SolverState.recordLearnt, h.learnt_length]
  case learnt_ids => exact h.learnt_ids
  case requirers => exact h.requirers
  case derivation =>
    rw [show (s.recordLearnt literals why).literals = s.literals from funext hlit,
      show (s.recordLearnt literals why).causes = s.causes from funext hcauses]
    exact h.derivation
  case causes_valid =>
    rw [show (s.recordLearnt literals why).causes = s.causes from funext hcauses]
    exact h.causes_valid

theorem addLearntClause_extends (s : SolverState N S F) (literals : List Literal)
    (why : List ClauseId) : Extends s (s.addLearntClause literals why).2 :=
  ⟨List.prefix_append _ _, List.prefix_append _ _, List.prefix_append _ _, List.prefix_refl _,
    fun _ _ h => h⟩

/-- Adding a learnt clause that follows from its causes. -/
theorem Core.addLearntClause {s : SolverState N S F} (h : s.Core) (literals : List Literal)
    (why : List ClauseId)
    (hwhy : ∀ i ∈ why, s.literals i ≠ [])
    (hentails : ∀ σ : VariableId → Bool, (∀ i ∈ why, ClauseHolds σ (s.literals i)) →
      ClauseHolds σ literals) :
    (s.addLearntClause literals why).2.Core ∧ Extends s (s.addLearntClause literals why).2 ∧
      (s.addLearntClause literals why).2.literals (s.addLearntClause literals why).1 = literals ∧
      (s.addLearntClause literals why).2.decisionTracker = s.decisionTracker := by
  have hrec : (s.recordLearnt literals why).Core :=
    ⟨h.tracker, h.arena.recordLearnt literals why,
      h.supported_extends (recordLearnt_extends s literals why), h.reasons⟩
  have hk : (s.recordLearnt literals why).kindLiterals (.learnt s.learntClauses.length : Clause N) =
      literals := by
    simp [kindLiterals, Clause.literals, SolverState.recordLearnt]
  have hvalid : ∀ i ∈ why, i < s.clauses.length ∧ i ≠ ClauseId.installRoot := by
    intro i hi
    obtain ⟨l, hl⟩ := List.exists_mem_of_ne_nil _ (hwhy i hi)
    exact ⟨lt_of_mem_literals hl, h.arena.ne_installRoot hl⟩
  have hadd := hrec.addClause (WatchedLiterals.learnt (N := N) s.learntClauses.length literals).1
    (.learnt s.learntClauses.length) (by simp) ⟨literals, by
      simp [SolverState.recordLearnt]⟩ ?_ ?_
  · have hlen : (s.recordLearnt literals why).clauses.length = s.clauses.length := rfl
    refine ⟨⟨hadd.tracker, ?_, hadd.supported, hadd.reasons⟩,
      addLearntClause_extends s literals why, ?_, rfl⟩
    · -- the id list gets the new clause
      have ha := hadd.arena
      refine ⟨ha.root, ha.root_only, ha.closed, ha.watched_length, ha.watched, ha.watches,
        ha.assertions, ha.learnt_length, ?_, ha.requirers, ha.derivation, ha.causes_valid⟩
      intro id hid
      rcases List.mem_append.mp hid with hid | hid
      · exact ha.learnt_ids id hid
      · obtain rfl := List.mem_singleton.mp hid
        refine ⟨?_, ?_⟩
        · show s.clauses.length < (s.clauses ++ [_]).length
          simp
        · intro h0
          have := Arena.lt_of_kind h.arena.root
          exact absurd (h0 : s.clauses.length = 0) (Nat.pos_iff_ne_zero.mp this)
    · exact (addClause_literals_new (s.recordLearnt literals why)
        (WatchedLiterals.learnt (N := N) s.learntClauses.length literals).1
        (.learnt s.learntClauses.length)).trans hk
  · intro w hw
    rw [hk]
    simp only [WatchedLiterals.learnt] at hw
    split at hw
    · cases hw
    · split at hw
      · next first last hfirst hlast =>
          simp only [Option.some.injEq] at hw
          subst hw
          exact ⟨List.mem_of_head? hfirst, List.mem_of_getLast? hlast,
            fun hb => by simp [Clause.isBinary] at hb⟩
      · cases hw
  · intro k why' hkind hwhy'
    obtain rfl : s.learntClauses.length = k := by simpa using hkind
    have : why' = why := by
      simp only [SolverState.recordLearnt, ← h.arena.learnt_length, List.getElem?_concat_length,
        Option.some.injEq] at hwhy'
      exact hwhy'.symm
    subst this
    refine ⟨hvalid, fun σ hσ => ?_⟩
    rw [hk]
    refine hentails σ fun i hi => ?_
    have := hσ i hi
    rwa [recordLearnt_literals h.arena] at this

/-- What `analyze` leaves behind: a learnt clause all of whose literals but one are false on the trail
    it was cut back to. -/
structure Learned (s : SolverState N S F) (level target : Nat) (id : ClauseId) (l : Literal)
    (s' : SolverState N S F) : Prop where
  extends_ : Extends s s'
  core : s'.CoreAt target
  lt : target < level
  rewound : s.decisionTracker.Rewound s'.decisionTracker
  unassigned : s'.decisionTracker.assignedValue l.var = none
  mem : l ∈ s'.literals id
  others : ∀ l' ∈ s'.literals id, l' ≠ l → s'.decisionTracker.eval l' = some false

theorem decayActivityScores_same (A : ActivityParams F) (s : SolverState N S F) :
    SameSearch s (decayActivityScores A s) :=
  ⟨⟨List.prefix_refl _, List.prefix_refl _, List.prefix_refl _, List.prefix_refl _,
    fun _ _ h => h⟩, rfl, rfl, rfl, rfl, rfl, rfl, rfl, rfl, rfl⟩

/-- The loop of `analyze` starts at the conflicting clause. -/
theorem analysisInv_start {s : SolverState N S F} {level : Nat} {id : ClauseId}
    (hc : s.CoreAt level) (hf : s.Falsified id) :
    AnalysisInv s s.decisionTracker level none id {} [] where
  rewound := .refl hc.tracker
  bounded := hc.bounded
  nonempty := hf.1
  falsified := fun l hl _ => hc.tracker.eval_false_iff.mp (hf.2 l hl)
  collected := ⟨⟨[], by simp⟩, by simp, by simp, hc.pos, List.nodup_nil, .inl ⟨rfl, rfl⟩⟩
  why_nonempty := by simp
  resolves := .inl ⟨rfl, rfl, rfl⟩

/-- What `analyze` makes of the state: activities are bumped, the clause is added, the trail is cut back. -/
theorem analyze_eq (P : DependencyProvider N S) (A : ActivityParams F) {s s' : SolverState N S F}
    {level target : Nat} {id learntId : ClauseId} {l : Literal}
    (h : s.analyze P A level id = some (target, learntId, l, s')) : ∃ r t,
      s.analyzeLoop s.decisionTracker.stack.length s.decisionTracker level none id {} [] = some r ∧
      r.tracker.undoUntil target = some t ∧ l = ⟨r.decision.var, r.decision.value⟩ ∧
      let learnt := swapFront r.analysis.learnt r.analysis.highestLevelIdx ++ [l]
      let s₁ := learnt.foldl (bumpActivity P A) s
      learntId = (s₁.addLearntClause learnt r.learntWhy).1 ∧
        s' = decayActivityScores A ((s₁.addLearntClause learnt r.learntWhy).2.withTracker t) := by
  unfold analyze at h
  split at h
  · cases h
  · next r hr =>
      dsimp only at h
      split at h
      · cases h
      · next t ht =>
          simp only [Option.some.injEq, Prod.mk.injEq] at h
          obtain ⟨rfl, rfl, rfl, rfl⟩ := h
          exact ⟨r, t, hr, ht, rfl, rfl, rfl⟩

/-- **Conflict analysis** cuts the trail back below the level of the conflict and adds a clause that
    follows from the arena and is unit there. -/
theorem analyze_spec (P : DependencyProvider N S) (A : ActivityParams F) {s s' : SolverState N S F}
    {level target : Nat} {id learntId : ClauseId} {l : Literal} (hc : s.CoreAt level)
    (hlevel : level ≠ 1) (hf : s.Falsified id)
    (h : s.analyze P A level id = some (target, learntId, l, s')) :
    Learned s level target learntId l s' := by
  simp only [analyze] at h
  split at h
  · cases h
  · next r hr =>
      have hok := analyzeLoop_spec hc.toCore _ (analysisInv_start hc hf) hr
      generalize hlearnt : swapFront r.analysis.learnt r.analysis.highestLevelIdx ++
        [(⟨r.decision.var, r.decision.value⟩ : Literal)] = learnt at h
      have hmem : ∀ x, x ∈ learnt ↔ x ∈ r.analysis.learnt ∨ x = ⟨r.decision.var, r.decision.value⟩ := by
        intro x
        rw [← hlearnt, List.mem_append, mem_swapFront, List.mem_singleton]
      have hsame := bumpAll_same P A s learnt
      have hcore := hc.toCore.same hsame
      obtain ⟨hcore', hext, hlits, htr⟩ := hcore.addLearntClause learnt r.learntWhy
        (fun i hi => by rw [hsame.literals hc.arena]; exact hok.why_nonempty i hi)
        (fun σ hσ => by
          obtain ⟨x, hx, hxσ⟩ := hok.chain.holds fun i hi => by
            have := hσ i hi
            rwa [hsame.literals hc.arena] at this
          exact ⟨x, (hmem x).mpr (by simpa using hx), hxσ⟩)
      split at h
      · cases h
      · next t ht =>
          simp only [Option.some.injEq, Prod.mk.injEq] at h
          obtain ⟨rfl, rfl, rfl, rfl⟩ := h
          obtain ⟨hrw, hbound, hkeep⟩ := DecisionTracker.undoUntil_spec hok.rewound.wf ht
          have hrew := hok.rewound.trans hrw
          have hcore'' := hcore'.rewind (t := t) (by rw [htr, hsame.decisionTracker]; exact hrew)
          refine ⟨hsame.extends_.trans (hext.trans ⟨List.prefix_refl _, List.prefix_refl _,
              List.prefix_refl _, List.prefix_refl _, fun _ _ h => h⟩),
            ⟨hcore''.same (decayActivityScores_same A _), Nat.le_max_right _ _, hbound⟩,
            ?_, hrew, ?_, ?_, ?_⟩
          · have := hok.back
            have hp := hc.pos
            omega
          · refine hrew.wf.assignedValue_none_iff.mpr fun e he => ?_
            exact hok.rewound.wf.assignedValue_none_iff.mp hok.unassigned e (hrw.trail.subset he)
          · show _ ∈ SolverState.literals (SolverState.addLearntClause _ _ _).2 _
            rw [hlits]
            exact (hmem _).mpr (.inr rfl)
          · intro x hx hne
            have hx' : x ∈ learnt := by
              rw [← hlits]
              exact hx
            rcases (hmem x).mp hx' with hx' | rfl
            · obtain ⟨e, he, hneg, hle⟩ := hok.learnt x hx' hne
              refine hrew.wf.eval_false_iff.mpr ⟨e, hkeep e he (hle.trans (Nat.le_max_left _ _)), hneg⟩
            · exact absurd rfl hne

end SolverState

end Resolvo
