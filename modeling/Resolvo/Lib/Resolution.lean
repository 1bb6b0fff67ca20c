import Resolvo.Lib.Sat

/-!
# `Lib.Resolution` — linear resolution

A clause-learning solver resolves the clause of a conflict with the reasons of the entries that made it
false, one after the other. The clause reached by such a chain is the set of its literals; whoever
satisfies the clauses of the chain satisfies it, and it has no literal of its own.
-/

namespace Sat

variable {V C : Type}

/-- A chain of resolution steps: the named clauses in the order they are used, and the clause reached. -/
inductive Chain (lits : C → List (Lit V)) : List C → Set (Lit V) → Prop where
  | start (i : C) : Chain lits [i] {l | l ∈ lits i}
  | resolve {why : List C} {c : Set (Lit V)} (h : Chain lits why c) (i : C) (l : Lit V)
      (hl : l ∈ lits i) (hn : l.neg ∈ c) :
      Chain lits (why ++ [i]) {m | (m ∈ c ∧ m ≠ l.neg) ∨ (m ∈ lits i ∧ m ≠ l)}

variable {lits : C → List (Lit V)} {why : List C} {c : Set (Lit V)}

/-- **Resolution is sound.** -/
theorem Chain.holds (h : Chain lits why c) {σ : V → Bool} (hσ : ∀ i ∈ why, ClauseHolds σ (lits i)) :
    ∃ l ∈ c, l.holds σ := by
  induction h with
  | start i => exact hσ i (List.mem_singleton_self i)
  | @resolve why c _ i l hl hn ih =>
      obtain ⟨m, hm, hmσ⟩ := ih fun j hj => hσ j (List.mem_append_left _ hj)
      by_cases hml : m = l.neg
      · -- the resolved literal is false, so the other clause holds through another literal
        subst hml
        obtain ⟨k, hk, hkσ⟩ := hσ i (List.mem_append_right _ (List.mem_singleton_self i))
        refine ⟨k, .inr ⟨hk, ?_⟩, hkσ⟩
        rintro rfl
        exact Lit.not_holds_of_neg hmσ hkσ
      · exact ⟨m, .inl ⟨hm, hml⟩, hmσ⟩

/-- Every literal of the clause reached is one of the clauses used. -/
theorem Chain.mem (h : Chain lits why c) {l : Lit V} (hl : l ∈ c) : ∃ i ∈ why, l ∈ lits i := by
  induction h with
  | start i => exact ⟨i, List.mem_singleton_self i, hl⟩
  | @resolve why c _ i m hm hn ih =>
      rcases hl with ⟨hl, -⟩ | ⟨hl, -⟩
      · obtain ⟨j, hj, hlj⟩ := ih hl
        exact ⟨j, List.mem_append_left _ hj, hlj⟩
      · exact ⟨i, List.mem_append_right _ (List.mem_singleton_self i), hl⟩

theorem Chain.ne_nil (h : Chain lits why c) : why ≠ [] := by
  cases h <;> simp

end Sat
