import Resolvo.Lib.Sat

/-!
# `Lib.Derivation` — clauses derived from earlier clauses

A numbered clause database in which some clauses are given and the others are derived, each from clauses
with smaller numbers. The given clauses a clause ultimately rests on are its leaves; whoever satisfies
the leaves satisfies the clause.
-/

namespace Sat

variable {V : Type}

/-- Every derived clause names smaller causes that entail it. -/
structure Derivation (lits : Nat → List (Lit V)) (causes : Nat → Option (List Nat)) : Prop where
  lt : ∀ {id why}, causes id = some why → ∀ i ∈ why, i < id
  entails : ∀ {id why}, causes id = some why → ∀ σ : V → Bool,
    (∀ i ∈ why, ClauseHolds σ (lits i)) → ClauseHolds σ (lits id)

/-- The given clauses that a clause rests on. -/
inductive Leaf (causes : Nat → Option (List Nat)) : Nat → Nat → Prop where
  | given {id : Nat} (h : causes id = none) : Leaf causes id id
  | derived {id i j : Nat} {why : List Nat} (h : causes id = some why) (hi : i ∈ why)
      (hj : Leaf causes i j) : Leaf causes id j

variable {lits : Nat → List (Lit V)} {causes : Nat → Option (List Nat)}

/-- A leaf is a given clause. -/
theorem Leaf.causes_eq_none {id j : Nat} (h : Leaf causes id j) : causes j = none := by
  induction h with
  | given h => exact h
  | derived _ _ _ ih => exact ih

theorem Leaf.of_given {id j : Nat} (hc : causes id = none) (h : Leaf causes id j) : j = id := by
  cases h with
  | given => rfl
  | derived h _ _ => rw [hc] at h; cases h

/-- What holds of a clause and is handed on to causes holds of the leaves. -/
theorem Leaf.induct (Good : Nat → Prop) {id j : Nat} (h : Leaf causes id j) (hid : Good id)
    (hcause : ∀ id why, Good id → causes id = some why → ∀ i ∈ why, Good i) : Good j := by
  induction h with
  | given _ => exact hid
  | derived h hi _ ih => exact ih (hcause _ _ hid h _ hi)

/-- **Whoever satisfies the leaves of a clause satisfies the clause.** -/
theorem Derivation.holds_of_leaves (h : Derivation lits causes) {σ : V → Bool} (id : Nat)
    (hleaf : ∀ j, Leaf causes id j → ClauseHolds σ (lits j)) : ClauseHolds σ (lits id) := by
  induction id using Nat.strong_induction_on with
  | _ id ih =>
    cases hc : causes id with
    | none => exact hleaf id (.given hc)
    | some why =>
        refine h.entails hc σ fun i hi => ?_
        exact ih i (h.lt hc i hi) fun j hj => hleaf j (.derived hc hi hj)

end Sat
