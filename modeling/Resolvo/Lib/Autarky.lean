import Resolvo.Lib.Derivation
import Resolvo.Lib.Resolution

/-!
# `Lib.Autarky` — what a refutation by resolution cannot touch

An autarky is a consistent set of literals that satisfies every clause it touches. Resolution respects it: a
clause derived with the help of a touched clause has a literal of the autarky. So the empty clause is derived
from clauses that no autarky touches, and every literal of a refuted clause set has its complement in it.
-/

namespace Sat

variable {V C : Type}

/-- The clause has a variable of the literals. -/
def Touches (X : Set (Lit V)) (c : List (Lit V)) : Prop := ∃ l ∈ c, l ∈ X ∨ l.neg ∈ X

def Satisfies (X : Set (Lit V)) (c : List (Lit V)) : Prop := ∃ l ∈ c, l ∈ X

/-- **An autarky** of some clauses: no two of its literals contradict each other, and it satisfies every
    clause that it touches. -/
structure IsAutarky (X : Set (Lit V)) (clauses : Set (List (Lit V))) : Prop where
  consistent : ∀ l ∈ X, l.neg ∉ X
  satisfies : ∀ c ∈ clauses, Touches X c → Satisfies X c

variable {X : Set (Lit V)} {clauses clauses' : Set (List (Lit V))} {lits lits' : C → List (Lit V)}
  {why : List C} {c : Set (Lit V)}

theorem IsAutarky.mono (h : IsAutarky X clauses) (hsub : clauses' ⊆ clauses) : IsAutarky X clauses' :=
  ⟨h.consistent, fun c hc => h.satisfies c (hsub hc)⟩

/-- A literal whose complement is in no clause. -/
theorem IsAutarky.of_pure {l : Lit V} (h : ∀ c ∈ clauses, l.neg ∉ c) : IsAutarky {l} clauses where
  consistent := by
    intro m hm
    rw [Set.mem_singleton_iff.mp hm]
    exact l.neg_ne
  satisfies := by
    rintro c hc ⟨m, hm, rfl | hneg⟩
    · exact ⟨m, hm, rfl⟩
    · have hml : m = l.neg := by rw [← Set.mem_singleton_iff.mp hneg, Lit.neg_neg]
      exact absurd (hml ▸ hm) (h c hc)

/-! ## One chain -/

theorem Chain.congr (h : Chain lits why c) (heq : ∀ i ∈ why, lits' i = lits i) : Chain lits' why c := by
  induction h with
  | start i =>
      rw [← heq i (List.mem_singleton_self i)]
      exact .start i
  | @resolve why c _ i l hl hn ih =>
      have hi := heq i (List.mem_append_right _ (List.mem_singleton_self i))
      have h' := ih fun j hj => heq j (List.mem_append_left _ hj)
      rw [← hi] at hl ⊢
      exact .resolve h' i l hl hn

/-- **Resolution respects an autarky**: if it touches a clause of the chain, it satisfies the clause that is
    reached. -/
theorem Chain.satisfies (h : Chain lits why c) (hX : IsAutarky X {d | ∃ i ∈ why, d = lits i})
    (ht : ∃ i ∈ why, Touches X (lits i)) : ∃ l ∈ c, l ∈ X := by
  induction h with
  | start i =>
      obtain ⟨j, hj, ht⟩ := ht
      rw [List.mem_singleton.mp hj] at ht
      exact hX.satisfies _ ⟨i, List.mem_singleton_self i, rfl⟩ ht
  | @resolve why c hchain i l hl hn ih =>
      have hi : i ∈ why ++ [i] := List.mem_append_right _ (List.mem_singleton_self i)
      by_cases hbefore : ∃ j ∈ why, Touches X (lits j)
      · have hsub : {d | ∃ j ∈ why, d = lits j} ⊆ {d | ∃ j ∈ why ++ [i], d = lits j} := by
          rintro d ⟨j, hj, hd⟩
          exact ⟨j, List.mem_append_left _ hj, hd⟩
        obtain ⟨m, hm, hmX⟩ := ih (hX.mono hsub) hbefore
        by_cases hml : m = l.neg
        · -- the literal is resolved away, but it made the autarky touch the other clause
          obtain ⟨k, hk, hkX⟩ := hX.satisfies _ ⟨i, hi, rfl⟩ ⟨l, hl, .inr (hml ▸ hmX)⟩
          refine ⟨k, .inr ⟨hk, ?_⟩, hkX⟩
          rintro rfl
          exact hX.consistent k hkX (hml ▸ hmX)
        · exact ⟨m, .inl ⟨hm, hml⟩, hmX⟩
      · obtain ⟨j, hj, ht⟩ := ht
        have hji : j = i := by
          rcases List.mem_append.mp hj with hj | hj
          · exact absurd ⟨j, hj, ht⟩ hbefore
          · exact List.mem_singleton.mp hj
        rw [hji] at ht
        obtain ⟨k, hk, hkX⟩ := hX.satisfies _ ⟨i, hi, rfl⟩ ht
        refine ⟨k, .inr ⟨hk, ?_⟩, hkX⟩
        rintro rfl
        -- its complement comes from a clause that was used before
        obtain ⟨j', hj', hmem⟩ := hchain.mem hn
        exact hbefore ⟨j', hj', k.neg, hmem, .inr (by rw [Lit.neg_neg]; exact hkX)⟩

/-! ## Derived clauses -/

/-- Every derived clause is reached from its causes, which have smaller numbers, by resolution. -/
structure Chained (lits : Nat → List (Lit V)) (causes : Nat → Option (List Nat)) : Prop where
  lt : ∀ {id why}, causes id = some why → ∀ i ∈ why, i < id
  chain : ∀ {id why}, causes id = some why → Chain lits why {l | l ∈ lits id}

section Chained

variable {lits : Nat → List (Lit V)} {causes : Nat → Option (List Nat)}

/-- The variables of a clause are those of its leaves. -/
theorem Chained.touches_leaf (h : Chained lits causes) (id : Nat) (ht : Touches X (lits id)) :
    ∃ j, Leaf causes id j ∧ Touches X (lits j) := by
  induction id using Nat.strong_induction_on with
  | _ id ih =>
      cases hc : causes id with
      | none => exact ⟨id, .given hc, ht⟩
      | some why =>
          obtain ⟨l, hl, hX⟩ := ht
          obtain ⟨i, hi, hli⟩ := (h.chain hc).mem hl
          obtain ⟨j, hj, hjt⟩ := ih i (h.lt hc i hi) ⟨l, hli, hX⟩
          exact ⟨j, .derived hc hi hj, hjt⟩

/-- **An autarky of the leaves of a clause satisfies the clause**, if it touches one of them. -/
theorem Chained.satisfies (h : Chained lits causes) (id : Nat)
    (hX : IsAutarky X {c | ∃ j, Leaf causes id j ∧ c = lits j})
    (ht : ∃ j, Leaf causes id j ∧ Touches X (lits j)) : Satisfies X (lits id) := by
  induction id using Nat.strong_induction_on with
  | _ id ih =>
      cases hc : causes id with
      | none =>
          obtain ⟨j, hj, ht⟩ := ht
          rw [hj.of_given hc] at ht
          exact hX.satisfies _ ⟨id, .given hc, rfl⟩ ht
      | some why =>
          have hcause : ∀ i ∈ why, IsAutarky X {c | ∃ j, Leaf causes i j ∧ c = lits j} := by
            intro i hi
            refine hX.mono ?_
            rintro c ⟨j, hj, hcj⟩
            exact ⟨j, .derived hc hi hj, hcj⟩
          refine (h.chain hc).satisfies ⟨hX.consistent, ?_⟩ ?_
          · rintro c ⟨i, hi, rfl⟩ hti
            exact ih i (h.lt hc i hi) (hcause i hi) (h.touches_leaf i hti)
          · obtain ⟨j, hj, ht⟩ := ht
            cases hj with
            | given hnone => rw [hc] at hnone; cases hnone
            | @derived _ i _ why' hc' hi hj =>
                obtain rfl := Option.some.inj (hc.symm.trans hc')
                exact ⟨i, hi, (ih i (h.lt hc i hi) (hcause i hi) ⟨j, hj, ht⟩).imp fun l hl => ⟨hl.1, .inl hl.2⟩⟩

end Chained

end Sat
