import Resolvo.Correctness.Learning

/-!
# `Correctness.Asserting` — the learnt clause asserts a literal

A conflict that involves the current level is analyzed without a panic: a seen entry of that level is left
to pop until one remains, and the root's entry is below it. The clause that is learnt has exactly one
literal of the level of the conflict, and the trail is cut back to the highest level of the others.
-/

set_option linter.unusedSectionVars false

namespace Resolvo

open Sat

variable {N S F : Type} [DecidableEq N] [DecidableEq S]

namespace SolverState

section Loop

variable {s : SolverState N S F} {t t' : DecisionTracker} {level dl : Nat}
  {ignored : Option VariableId} {id : ClauseId} {a : Analysis} {why : List ClauseId} {d : Decision}

/-! ## The loop does not panic -/

/-- Some seen entry, or one the next clause is about to show, is of the current level. -/
def Involves (s : SolverState N S F) (t : DecisionTracker) (level : Nat) (ignored : Option VariableId)
    (id : ClauseId) (seen : List VariableId) : Prop :=
  ∃ e ∈ t.trail, e.level = level ∧
    (e.lit.var ∈ seen ∨ ∃ l ∈ s.literals id, ignored ≠ some l.var ∧ l.var = e.lit.var)

/-- After the clause was visited the entry is seen, so popping ends at an entry of the current level. -/
theorem Involves.popped (hinv : Involves s t level ignored id a.seen)
    (hb : ∀ e ∈ t.trail, e.level ≤ level) {a' : Analysis} (hsub : a.seen ⊆ a'.seen)
    (hseen : ∀ l ∈ s.literals id, ignored ≠ some l.var → l.var ∈ a'.seen)
    (hp : Popped a'.seen t t' d dl) : dl = level := by
  obtain ⟨e, he, hel, hv⟩ := hinv
  have hv' : e.lit.var ∈ a'.seen := by
    rcases hv with hv | ⟨l, hl, hig, hlv⟩
    · exact hsub hv
    · exact hlv ▸ hseen l hl hig
  refine Nat.le_antisymm (hb _ hp.mem) ?_
  rcases hp.split e he hv' with he | rfl
  · exact hel ▸ hp.below e he
  · exact hel.ge

/-- What the loop of `analyze` returns when the conflict involves the current level: the literals are of
    lower levels, except for the one of the popped entry, and nothing below the level was popped. -/
structure Asserting (s : SolverState N S F) (level : Nat) (r : AnalysisResult) : Prop where
  decided : entryOf r.decision level ∈ s.decisionTracker.trail
  keeps : ∀ e ∈ s.decisionTracker.trail, e.level < level → e ∈ r.tracker.trail
  lower : ∀ l ∈ r.analysis.learnt, ∃ e ∈ s.decisionTracker.trail,
    e.lit = l.neg ∧ e.level < level ∧ e.level ≤ r.analysis.backTrackTo
  nodup : (r.analysis.learnt.map Lit.var).Nodup
  highest : (r.analysis.learnt = [] ∧ r.analysis.backTrackTo = 0) ∨
    ∃ l, r.analysis.learnt[r.analysis.highestLevelIdx]? = some l ∧
      ∃ e ∈ s.decisionTracker.trail, e.lit = l.neg ∧ e.level = r.analysis.backTrackTo

/-- Popping down to a seen entry succeeds when the entry is not at the bottom of the trail. -/
theorem popUntilSeen_total {seen : List VariableId} (fuel : Nat) (ht : t.WF)
    (hfuel : t.stack.length ≤ fuel) {e low : Entry VariableId ClauseId} (he : e ∈ t.trail)
    (hv : e.lit.var ∈ seen) (hlow : low ∈ t.trail) (hlt : low.level < e.level) :
    ∃ r, popUntilSeen seen fuel t = some r := by
  induction fuel generalizing t with
  | zero =>
      have hpos := List.length_pos_of_mem he
      rw [DecisionTracker.trail_length] at hpos
      omega
  | succ fuel ih =>
      have hlen : 1 < t.stack.length := DecisionTracker.one_lt_length he hlow fun heq =>
        Nat.ne_of_gt hlt (congrArg Entry.level heq)
      obtain ⟨⟨d, level, t₁⟩, hundo⟩ := DecisionTracker.undoLast_total hlen
      obtain ⟨htrail, hrw, -, -⟩ := DecisionTracker.undoLast_spec ht hundo
      unfold popUntilSeen
      rw [hundo]
      dsimp only
      by_cases hseen : d.var ∈ seen
      · exact ⟨_, if_pos hseen⟩
      · rw [if_neg hseen]
        have hsorted := ht.sorted
        unfold Trail.Sorted at hsorted
        rw [htrail] at hsorted he hlow
        have hlen₁ := congrArg List.length htrail
        simp only [DecisionTracker.trail_length, List.length_append, List.length_singleton] at hlen₁
        have he₁ : e ∈ t₁.trail := by
          refine (List.mem_append.mp he).resolve_right fun hlast => hseen ?_
          rw [List.mem_singleton.mp hlast] at hv
          exact hv
        refine ih hrw.wf (by omega) he₁ ?_
        -- the last entry is not below the seen one
        refine (List.mem_append.mp hlow).resolve_right fun hlast => ?_
        have := (List.pairwise_append.mp hsorted).2.2 e he₁ low hlast
        omega

/-- The literals of a clause can be visited at a level above 1. -/
theorem analyzeLiterals_total (ls : List Literal) (hlevel : 1 < level)
    (hl : ∀ l ∈ ls, ignored ≠ some l.var → t.assignedValue l.var ≠ none) :
    ∃ a', ls.foldlM (analyzeLiteral t level ignored) a = some a' := by
  induction ls generalizing a with
  | nil => exact ⟨a, rfl⟩
  | cons l ls ih =>
      have hone : ∃ a₁, analyzeLiteral t level ignored a l = some a₁ := by
        unfold analyzeLiteral
        by_cases hig : ignored = some l.var
        · exact ⟨_, if_pos hig⟩
        by_cases hseen : l.var ∈ a.seen
        · exact ⟨a, by simp only [hig, hseen, if_false, if_true]⟩
        by_cases hcur : t.level l.var = level
        · exact ⟨_, by simp only [hig, hseen, hcur, if_false, if_true]; rfl⟩
        cases hv : t.assignedValue l.var with
        | none => exact absurd hv (hl l List.mem_cons_self hig)
        | some value =>
            exact ⟨_, by
              simp only [hig, hseen, hcur, show level > 1 from hlevel, if_false, if_true]
              rfl⟩
      obtain ⟨a₁, h₁⟩ := hone
      obtain ⟨a', h'⟩ := ih (a := a₁) fun l' hl' => hl l' (List.mem_cons_of_mem _ hl')
      refine ⟨a', ?_⟩
      rw [List.foldlM_cons, h₁]
      exact h'

/-- The loop ends at the popped entry. -/
theorem Asserting.of_popped (hinv : AnalysisInv s t level ignored id a why) {a' : Analysis}
    (hc : Collected t level a') (hp : Popped a'.seen t t' d level)
    (hkeeps : ∀ e ∈ s.decisionTracker.trail, e.level < level → e ∈ t'.trail) (n : Nat) :
    Asserting s level ⟨d, { a' with causesAtCurrentLevel := n }, why ++ [id], t'⟩ where
  decided := hinv.rewound.trail.subset hp.mem
  keeps := hkeeps
  lower := by
    intro l hl
    obtain ⟨-, e, he, hneg, hlt, hle⟩ := hc.learnt l hl
    exact ⟨e, hinv.rewound.trail.subset he, hneg, hlt, hle⟩
  nodup := hc.nodup
  highest := by
    rcases hc.highest with hnone | ⟨l, hl, e, he, hneg, hel⟩
    · exact .inl hnone
    · exact .inr ⟨l, hl, e, hinv.rewound.trail.subset he, hneg, hel⟩

/-- **The loop of `analyze` does not panic** on a conflict that involves the current level. -/
theorem analyzeLoop_total (hs : s.Core) (hlevel : 1 < level) (fuel : Nat)
    (hinv : AnalysisInv s t level ignored id a why) (hcur : Involves s t level ignored id a.seen)
    (hkeeps : ∀ e ∈ s.decisionTracker.trail, e.level < level → e ∈ t.trail)
    (hlow : ∃ e ∈ t.trail, e.level < level) (hfuel : t.stack.length ≤ fuel) :
    ∃ r, s.analyzeLoop fuel t level ignored id a why = some r ∧ Asserting s level r := by
  induction fuel generalizing t ignored id a why with
  | zero =>
      obtain ⟨e, he, -⟩ := hlow
      have hpos := List.length_pos_of_mem he
      rw [DecisionTracker.trail_length] at hpos
      omega
  | succ fuel ih =>
      have hwf := hinv.rewound.wf
      have hvisit : ∃ a₁, (s.literals id).foldlM (analyzeLiteral t level ignored) a = some a₁ := by
        refine analyzeLiterals_total _ hlevel fun l hl hig hnone => ?_
        obtain ⟨e, he, hneg⟩ := hinv.falsified l hl hig
        refine hwf.assignedValue_none_iff.mp hnone e he ?_
        rw [hneg]
        rfl
      obtain ⟨a₁, hvisit⟩ := hvisit
      obtain ⟨hc, hsub, hseen, hfrom⟩ := analyzeLiterals_spec hwf hinv.bounded _ hinv.collected
        hinv.falsified hvisit
      obtain ⟨low, hlow, hlowlt⟩ := hlow
      have hpop : ∃ r, popUntilSeen a₁.seen t.stack.length t = some r := by
        obtain ⟨e, he, hel, hv⟩ := hcur
        refine popUntilSeen_total _ hwf le_rfl he ?_ hlow (by omega)
        rcases hv with hv | ⟨l, hl, hig, hlv⟩
        · exact hsub hv
        · exact hlv ▸ hseen l hl hig
      obtain ⟨⟨d, top, t'⟩, hpop⟩ := hpop
      obtain ⟨dl, hp, e, htop, hetop⟩ := popUntilSeen_spec _ hwf hpop
      obtain rfl : dl = level := hcur.popped hinv.bounded hsub hseen hp
      have hkeep : ∀ e ∈ t.trail, e.level < dl → e ∈ t'.trail := fun e he hlt =>
        (hp.above e he).resolve_right (Nat.not_le.mpr hlt)
      have hkeeps' : ∀ e ∈ s.decisionTracker.trail, e.level < dl → e ∈ t'.trail := fun e he hlt =>
        hkeep e (hkeeps e he hlt) hlt
      unfold analyzeLoop
      simp only [hvisit, hpop]
      split
      · exact ⟨_, rfl, .of_popped hinv hc hp hkeeps' _⟩
      · next hnonzero =>
          obtain ⟨e₀, he₀, hel₀, hv₀⟩ := hc.another hp hnonzero
          obtain rfl : top = dl := hetop ▸ hp.top_level he₀ hel₀ htop
          have hlen : t'.stack.length < t.stack.length := by
            have := hp.prefix_.length_le
            simp only [DecisionTracker.trail_length, List.length_append, List.length_singleton] at this
            omega
          exact ih (hinv.continue_ hs hc hp hinv.why_ne_nil (hinv.visited hsub hseen hfrom)
            ⟨e₀, he₀, hel₀⟩) ⟨e₀, he₀, hel₀, .inl hv₀⟩ hkeeps' ⟨low, hkeep low hlow hlowlt, hlowlt⟩
            (by omega)

end Loop

/-! ## The learnt clause -/

theorem swapFront_head {l : List Literal} {i : Nat} {x : Literal} (h : l[i]? = some x) :
    (swapFront l i).head? = some x := by
  unfold swapFront
  cases l with
  | nil => cases h
  | cons y rest =>
      simp only [List.getElem?_cons_zero, h, List.set_cons_zero]
      cases i with
      | zero =>
          obtain rfl : y = x := Option.some.inj h
          rfl
      | succ i => rfl

/-- **What an analysis learns** from a conflict: a clause that follows by resolution from its causes, all
    of its literals false, exactly the last one of the level of the conflict; the trail is cut back to the
    highest level of the others. -/
structure Asserts (s : SolverState N S F) (level target : Nat) (id : ClauseId) (l : Literal)
    (s' : SolverState N S F) : Prop where
  derived : ∃ why, s'.causes id = some why ∧ Chain s.literals why {m | m ∈ s'.literals id}
  distinct : ((s'.literals id).map Lit.var).Nodup
  falsified : ∀ m ∈ s'.literals id, s.decisionTracker.eval m = some false
  last : (s'.literals id).getLast? = some l
  last_level : s.decisionTracker.level l.var = level
  below : ∀ m ∈ s'.literals id, m ≠ l →
    s.decisionTracker.level m.var < level ∧ s.decisionTracker.level m.var ≤ target
  one_le : 1 ≤ target
  lt : target < level
  highest : (s'.literals id = [l] ∧ target = 1) ∨
    ∃ m, (s'.literals id).head? = some m ∧ m ≠ l ∧ s.decisionTracker.level m.var = target
  cut : s'.decisionTracker.trail = s.decisionTracker.trail.filter fun e => e.level ≤ target
  unassigned : s'.decisionTracker.assignedValue l.var = none
  others : ∀ m ∈ s'.literals id, m ≠ l → s'.decisionTracker.eval m = some false

/-- The trail after undoing is the part up to the level. -/
theorem cut_eq_filter {t t' : DecisionTracker} {target : Nat} (ht : t.WF)
    (hpre : t'.trail <+: t.trail) (hle : ∀ e ∈ t'.trail, e.level ≤ target)
    (hkeep : ∀ e ∈ t.trail, e.level ≤ target → e ∈ t'.trail) :
    t'.trail = t.trail.filter fun e => e.level ≤ target := by
  obtain ⟨rest, hrest⟩ := hpre
  have hnd : t.trail.Nodup := ht.trail_nodup
  rw [← hrest, List.filter_append, List.filter_eq_self.mpr fun e he => by simpa using hle e he]
  rw [← hrest] at hnd
  have hnil : rest.filter (fun e => e.level ≤ target) = [] := by
    refine List.filter_eq_nil_iff.mpr fun e he hl => ?_
    have hmem := hkeep e (by rw [← hrest]; exact List.mem_append_right _ he) (by simpa using hl)
    exact (List.nodup_append.mp hnd).2.2 e hmem e he rfl
  rw [hnil, List.append_nil]

/-- The causes of a clause that was just learnt. -/
theorem addLearntClause_causes {s : SolverState N S F} (h : s.Arena) (literals : List Literal)
    (why : List ClauseId) :
    (s.addLearntClause literals why).2.causes (s.addLearntClause literals why).1 = some why := by
  have hk : (s.addLearntClause literals why).2.clauses[(s.addLearntClause literals why).1]? =
      some (.learnt s.learntClauses.length) := List.getElem?_concat_length
  unfold causes
  rw [hk]
  show (s.learntWhy ++ [why])[s.learntClauses.length]? = some why
  rw [← h.learnt_length]
  exact List.getElem?_concat_length

theorem addLearntClause_literals (s : SolverState N S F) (literals : List Literal)
    (why : List ClauseId) :
    (s.addLearntClause literals why).2.literals (s.addLearntClause literals why).1 = literals := by
  have hk : (s.addLearntClause literals why).2.clauses[(s.addLearntClause literals why).1]? =
      some (.learnt s.learntClauses.length) := List.getElem?_concat_length
  rw [literals_of_kind hk]
  show ((s.learntClauses ++ [literals])[s.learntClauses.length]?).getD [] = literals
  rw [List.getElem?_concat_length]
  rfl

/-- **Analyzing a conflict that involves the current level** succeeds and learns an asserting clause. -/
theorem analyze_asserts (P : DependencyProvider N S) (A : ActivityParams F) {s : SolverState N S F}
    {level : Nat} {id : ClauseId} (hc : s.CoreAt level) (hlevel : level ≠ 1) (hf : s.Falsified id)
    (hcur : ∃ e ∈ s.decisionTracker.trail, e.level = level ∧ e.lit.neg ∈ s.literals id)
    (hlow : ∃ e ∈ s.decisionTracker.trail, e.level = 1) :
    ∃ target learntId l s', s.analyze P A level id = some (target, learntId, l, s') ∧
      Asserts s level target learntId l s' := by
  have hlt : 1 < level := Nat.lt_of_le_of_ne hc.pos hlevel.symm
  obtain ⟨low, hlowmem, hlowlevel⟩ := hlow
  have hstart := analysisInv_start hc hf
  -- the loop ends with the asserting literal
  have hloop : ∃ r, s.analyzeLoop s.decisionTracker.stack.length s.decisionTracker level none id {}
      [] = some r ∧ Asserting s level r := by
    refine analyzeLoop_total hc.toCore hlt _ hstart ?_ (fun e he _ => he)
      ⟨low, hlowmem, by omega⟩ le_rfl
    obtain ⟨e, he, hel, hneg⟩ := hcur
    exact ⟨e, he, hel, .inr ⟨_, hneg, by simp, rfl⟩⟩
  obtain ⟨r, hr, hasserting⟩ := hloop
  have hok := analyzeLoop_spec hc.toCore _ hstart hr
  -- the trail can be cut to the target
  have hundo : ∃ t, r.tracker.undoUntil (max r.analysis.backTrackTo 1) = some t :=
    DecisionTracker.undoUntil_total hok.rewound.wf (hasserting.keeps low hlowmem (by omega))
      (by omega)
  obtain ⟨t, ht⟩ := hundo
  generalize hlearnt : swapFront r.analysis.learnt r.analysis.highestLevelIdx ++
    [(⟨r.decision.var, r.decision.value⟩ : Literal)] = learnt
  have hsame := bumpAll_same P A s learnt
  have hcausesWhy := addLearntClause_causes (hc.toCore.same hsame).arena learnt r.learntWhy
  have hanalyze : s.analyze P A level id = some (max r.analysis.backTrackTo 1,
      ((learnt.foldl (bumpActivity P A) s).addLearntClause learnt r.learntWhy).1,
      ⟨r.decision.var, r.decision.value⟩, decayActivityScores A (withTracker
        ((learnt.foldl (bumpActivity P A) s).addLearntClause learnt r.learntWhy).2 t)) := by
    unfold analyze
    simp only [hr, hlearnt, ht]
    rfl
  have hlearned := analyze_spec P A hc hlevel hf hanalyze
  generalize hid : ((learnt.foldl (bumpActivity P A) s).addLearntClause learnt r.learntWhy).1 =
    learntId at hanalyze hlearned hcausesWhy
  generalize hs' : decayActivityScores A (withTracker
    ((learnt.foldl (bumpActivity P A) s).addLearntClause learnt r.learntWhy).2 t) = s'
    at hanalyze hlearned
  have hlits : s'.literals learntId = learnt := by
    rw [← hs', ← hid]
    exact addLearntClause_literals _ learnt r.learntWhy
  have hwhy : s'.causes learntId = some r.learntWhy := by
    rw [← hs']
    exact hcausesWhy
  have htracker : s'.decisionTracker = t := by
    rw [← hs']
    rfl
  obtain ⟨hrw, hbound, hkeep⟩ := DecisionTracker.undoUntil_spec hok.rewound.wf ht
  refine ⟨_, _, _, _, hanalyze, ?_⟩
  -- the level of each literal
  have hlast : s.decisionTracker.level r.decision.var = level :=
    DecisionTracker.level_of_mem_trail hasserting.decided
  have hlow : ∀ m ∈ r.analysis.learnt, s.decisionTracker.level m.var < level ∧
      s.decisionTracker.level m.var ≤ r.analysis.backTrackTo := by
    intro m hm
    obtain ⟨e, he, hneg, hlt, hle⟩ := hasserting.lower m hm
    have hv : e.lit.var = m.var := by rw [hneg]; rfl
    rw [← hv, DecisionTracker.level_of_mem_trail he]
    exact ⟨hlt, hle⟩
  have hne : ∀ m ∈ r.analysis.learnt, m.var ≠ r.decision.var := by
    intro m hm hv
    have := (hlow m hm).1
    rw [hv, hlast] at this
    exact Nat.lt_irrefl _ this
  have hmem : ∀ m ∈ s'.literals learntId, m ∈ r.analysis.learnt ∨ m = ⟨r.decision.var, r.decision.value⟩ := by
    intro m hm
    rw [hlits, ← hlearnt] at hm
    exact (List.mem_append.mp hm).imp mem_swapFront.mp List.mem_singleton.mp
  constructor
  case derived =>
    refine ⟨r.learntWhy, hwhy, ?_⟩
    have hset : {m | m ∈ s'.literals learntId} =
        {m | m ∈ r.analysis.learnt ++ [(⟨r.decision.var, r.decision.value⟩ : Literal)]} := by
      ext m
      rw [hlits, ← hlearnt]
      show m ∈ swapFront _ _ ++ _ ↔ m ∈ r.analysis.learnt ++ _
      rw [List.mem_append, List.mem_append, mem_swapFront]
    exact hset ▸ hok.chain
  case distinct =>
    rw [hlits, ← hlearnt, List.map_append, List.nodup_append]
    refine ⟨((swapFront_perm _ _).map _).nodup_iff.mpr hasserting.nodup, List.nodup_singleton _, ?_⟩
    intro v hv w hw
    obtain ⟨m, hm, rfl⟩ := List.mem_map.mp hv
    rw [List.mem_singleton.mp hw]
    exact hne m (mem_swapFront.mp hm)
  case falsified =>
    intro m hm
    rcases hmem m hm with hm | rfl
    · obtain ⟨e, he, hneg, -⟩ := hasserting.lower m hm
      exact hc.tracker.eval_false_iff.mpr ⟨e, he, hneg⟩
    · exact hc.tracker.eval_false_iff.mpr ⟨_, hasserting.decided, by
        simp [entryOf, Decision.lit, Lit.neg]⟩
  case last =>
    rw [hlits, ← hlearnt]
    exact List.getLast?_concat
  case last_level => exact hlast
  case below =>
    intro m hm hne'
    obtain ⟨h₁, h₂⟩ := hlow m ((hmem m hm).resolve_right hne')
    exact ⟨h₁, h₂.trans (Nat.le_max_left _ _)⟩
  case one_le => exact Nat.le_max_right _ _
  case lt => exact hlearned.lt
  case highest =>
    rcases hasserting.highest with ⟨hnil, hzero⟩ | ⟨m, hm, e, he, hneg, hel⟩
    · left
      rw [hlits, ← hlearnt, hnil, hzero]
      exact ⟨rfl, rfl⟩
    · right
      have hv : e.lit.var = m.var := by rw [hneg]; rfl
      have hpos := hc.tracker.pos e he
      refine ⟨m, ?_, ?_, ?_⟩
      · rw [hlits, ← hlearnt, List.head?_append, swapFront_head hm]
        rfl
      · rintro rfl
        exact hne _ (List.mem_of_getElem? hm) rfl
      · rw [← hv, DecisionTracker.level_of_mem_trail he, hel]
        omega
  case cut =>
    rw [htracker]
    refine cut_eq_filter hc.tracker (hrw.trail.trans hok.rewound.trail) hbound fun e he hle => ?_
    refine hkeep e (hasserting.keeps e he ?_) hle
    have := hlearned.lt
    omega
  case unassigned => exact hlearned.unassigned
  case others => exact hlearned.others

end SolverState

end Resolvo
