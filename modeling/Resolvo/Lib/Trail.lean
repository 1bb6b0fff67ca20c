import Resolvo.Lib.Sat

/-!
# `Lib.Trail` — trails, reasons and what they imply

The trail of a clause-learning solver: the literals made true so far, each with its decision level and
the clause it was derived from. A trail is *supported* when every entry either opens a level of its own
or is forced by its reason, all of whose other literals were false before. Everything a solver concludes
from a trail follows from that: the entries of a level are consequences of the entry that opens it.
-/

namespace Sat

/-- A trail entry: the literal made true, its level, and the name of the clause that forced it. -/
structure Entry (V C : Type) where
  lit : Lit V
  level : Nat
  reason : C

/-- A trail, oldest entry first. -/
abbrev Trail (V C : Type) := List (Entry V C)

namespace Trail

variable {V C : Type}

/-- The trail makes a literal false. -/
def Falsifies (tr : Trail V C) (l : Lit V) : Prop := ∃ e ∈ tr, e.lit = l.neg

/-- An entry is forced by its reason: all other literals of the clause are false before it. -/
structure Implied (lits : C → List (Lit V)) (pre : Trail V C) (e : Entry V C) : Prop where
  mem : e.lit ∈ lits e.reason
  others : ∀ l ∈ lits e.reason, l ≠ e.lit → Falsifies pre l

/-- An entry opens a level: everything before it is strictly lower. -/
def Opens (pre : Trail V C) (e : Entry V C) : Prop := ∀ e' ∈ pre, e'.level < e.level

/-- Every entry opens a level or is forced by its reason. -/
def Supported (lits : C → List (Lit V)) (tr : Trail V C) : Prop :=
  ∀ pre e, pre ++ [e] <+: tr → Opens pre e ∨ Implied lits pre e

/-- The trail is ordered by level. -/
def Sorted (tr : Trail V C) : Prop := tr.Pairwise fun a b => a.level ≤ b.level

variable {lits : C → List (Lit V)}

theorem Falsifies.mono {pre tr : Trail V C} {l : Lit V} (h : Falsifies pre l) (hp : pre ⊆ tr) :
    Falsifies tr l := by
  obtain ⟨e, he, hl⟩ := h
  exact ⟨e, hp he, hl⟩

@[simp] theorem falsifies_append {tr tr' : Trail V C} {l : Lit V} :
    Falsifies (tr ++ tr') l ↔ Falsifies tr l ∨ Falsifies tr' l := by
  simp [Falsifies, or_and_right, exists_or]

@[simp] theorem falsifies_nil {l : Lit V} : ¬ Falsifies ([] : Trail V C) l := by simp [Falsifies]

theorem Supported.nil : Supported lits ([] : Trail V C) := by
  intro pre e h
  simp at h

theorem Supported.of_prefix {tr tr' : Trail V C} (h : Supported lits tr) (hp : tr' <+: tr) :
    Supported lits tr' := fun pre e he => h pre e (he.trans hp)

/-- Extending a supported trail by an entry that opens a level or is forced. -/
theorem Supported.snoc {tr : Trail V C} {e : Entry V C} (h : Supported lits tr)
    (he : Opens tr e ∨ Implied lits tr e) : Supported lits (tr ++ [e]) := by
  intro pre e' hp
  rcases List.prefix_concat_iff.mp hp with heq | hpre
  · obtain ⟨rfl, hee⟩ := List.append_inj' heq rfl
    obtain rfl : e' = e := by simpa using hee
    exact he
  · exact h pre e' hpre

/-- The last entry of a supported trail. -/
theorem Supported.last {tr : Trail V C} {e : Entry V C} (h : Supported lits (tr ++ [e])) :
    Opens tr e ∨ Implied lits tr e := h tr e (List.prefix_refl _)

/-- Only the clauses that occur as reasons matter. -/
theorem Supported.congr {lits' : C → List (Lit V)} {tr : Trail V C} (h : Supported lits tr)
    (heq : ∀ e ∈ tr, lits' e.reason = lits e.reason) : Supported lits' tr := by
  intro pre e hp
  have he : e ∈ tr := hp.subset (by simp)
  rcases h pre e hp with ho | hi
  · exact .inl ho
  · refine .inr ⟨?_, ?_⟩
    · rw [heq e he]; exact hi.mem
    · rw [heq e he]; exact hi.others

theorem Sorted.of_prefix {tr tr' : Trail V C} (h : Sorted tr) (hp : tr' <+: tr) : Sorted tr' :=
  h.sublist hp.sublist

theorem Sorted.snoc {tr : Trail V C} {e : Entry V C} (h : Sorted tr)
    (he : ∀ e' ∈ tr, e'.level ≤ e.level) : Sorted (tr ++ [e]) := by
  refine List.pairwise_append.mpr ⟨h, List.pairwise_singleton _ _, ?_⟩
  intro a ha b hb
  obtain rfl : b = e := by simpa using hb
  exact he a ha

/-! ## What a supported trail implies -/

/-- **A closed part of a supported trail follows from its reasons.** `I` picks the variables of
    interest: the reason of every forced entry in `I` is satisfied by `σ`, and reasons lead from `I`
    to `I`. -/
theorem Supported.agrees_on {tr : Trail V C} (h : Supported lits tr) (I : V → Prop) (σ : V → Bool)
    (hopen : ∀ pre e, pre ++ [e] <+: tr → I e.lit.var → Opens pre e → e.lit.holds σ)
    (hreason : ∀ pre e, pre ++ [e] <+: tr → I e.lit.var → Implied lits pre e →
      ClauseHolds σ (lits e.reason) ∧ ∀ l ∈ lits e.reason, l ≠ e.lit → I l.var) :
    ∀ e ∈ tr, I e.lit.var → e.lit.holds σ := by
  induction tr using List.reverseRecOn with
  | nil => simp
  | append_singleton tr e ih =>
      have hpre : tr <+: tr ++ [e] := List.prefix_append _ _
      have ih' := ih (h.of_prefix hpre) (fun pre e' hp => hopen pre e' (hp.trans hpre))
        (fun pre e' hp => hreason pre e' (hp.trans hpre))
      intro e' he' hI
      rcases List.mem_append.mp he' with hmem | hlast
      · exact ih' e' hmem hI
      · obtain rfl : e' = e := by simpa using hlast
        rcases h.last with ho | hi
        · exact hopen tr e' (List.prefix_refl _) hI ho
        · obtain ⟨⟨l, hl, hlσ⟩, hcl⟩ := hreason tr e' (List.prefix_refl _) hI hi
          by_cases hle : l = e'.lit
          · exact hle ▸ hlσ
          · -- every other literal of the reason is false under `σ` as well
            obtain ⟨e₀, he₀, hneg⟩ := hi.others l hl hle
            have hI₀ : I e₀.lit.var := by rw [hneg]; exact hcl l hl hle
            have := ih' e₀ he₀ hI₀
            rw [hneg] at this
            exact absurd hlσ (Lit.not_holds_of_neg this)

/-- An assignment that satisfies every reason and every opening entry agrees with the whole trail. -/
theorem Supported.agrees {tr : Trail V C} (h : Supported lits tr) (σ : V → Bool)
    (hopen : ∀ pre e, pre ++ [e] <+: tr → Opens pre e → e.lit.holds σ)
    (hreason : ∀ pre e, pre ++ [e] <+: tr → Implied lits pre e → ClauseHolds σ (lits e.reason)) :
    ∀ e ∈ tr, e.lit.holds σ := fun e he =>
  h.agrees_on (fun _ => True) σ (fun pre e hp _ => hopen pre e hp)
    (fun pre e hp _ hi => ⟨hreason pre e hp hi, fun _ _ _ => trivial⟩) e he trivial

/-- A clause that is false under the trail is false under every assignment that agrees with it. -/
theorem not_clauseHolds_of_falsified {tr : Trail V C} {σ : V → Bool} {c : List (Lit V)}
    (hσ : ∀ e ∈ tr, e.lit.holds σ) (hc : ∀ l ∈ c, Falsifies tr l) : ¬ ClauseHolds σ c := by
  refine not_clauseHolds fun l hl hh => ?_
  obtain ⟨e, he, hneg⟩ := hc l hl
  have := hσ e he
  rw [hneg] at this
  exact Lit.not_holds_of_neg this hh

end Trail

end Sat
