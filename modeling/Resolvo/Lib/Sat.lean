import Mathlib

/-!
# `Lib.Sat` — literals, assignments and entailment

The propositional vocabulary a clause-learning solver is verified in: literals over an arbitrary
variable type, clauses as lists of literals, total and partial assignments, and entailment between
sets of clauses.
-/

namespace Sat

/-- A literal: a variable, possibly negated. -/
structure Lit (V : Type) where
  var : V
  negate : Bool
  deriving DecidableEq, Repr

variable {V : Type}

/-- The value of its variable that makes the literal true. -/
def Lit.satisfyingValue (l : Lit V) : Bool := !l.negate

/-- The positive literal of a variable. -/
def positive (v : V) : Lit V := ⟨v, false⟩

/-- The negative literal of a variable. -/
def negative (v : V) : Lit V := ⟨v, true⟩

@[simp] theorem positive_var (v : V) : (positive v).var = v := rfl
@[simp] theorem negative_var (v : V) : (negative v).var = v := rfl
@[simp] theorem positive_negate (v : V) : (positive v).negate = false := rfl
@[simp] theorem negative_negate (v : V) : (negative v).negate = true := rfl

/-- Evaluate a literal under a partial assignment. -/
def Lit.eval (value : V → Option Bool) (l : Lit V) : Option Bool :=
  (value l.var).map (fun b => b != l.negate)

/-- A literal holds under a total assignment. -/
def Lit.holds (σ : V → Bool) (l : Lit V) : Prop := σ l.var = l.satisfyingValue

/-- A clause holds when one of its literals does. -/
def ClauseHolds (σ : V → Bool) (c : List (Lit V)) : Prop := ∃ l ∈ c, l.holds σ

/-- The complementary literal. -/
def Lit.neg (l : Lit V) : Lit V := ⟨l.var, !l.negate⟩

@[simp] theorem Lit.neg_var (l : Lit V) : l.neg.var = l.var := rfl
@[simp] theorem Lit.neg_negate (l : Lit V) : l.neg.negate = !l.negate := rfl
@[simp] theorem Lit.neg_neg (l : Lit V) : l.neg.neg = l := by simp [Lit.neg]
@[simp] theorem neg_positive (v : V) : (positive v).neg = negative v := rfl
@[simp] theorem neg_negative (v : V) : (negative v).neg = positive v := rfl

theorem Lit.neg_ne (l : Lit V) : l.neg ≠ l := by
  intro h
  have := congrArg Lit.negate h
  simp at this

/-- The two literals of a variable are each other's complement. -/
theorem Lit.eq_or_eq_neg {l m : Lit V} (h : l.var = m.var) : l = m ∨ l = m.neg := by
  obtain ⟨lv, ln⟩ := l
  obtain ⟨mv, mn⟩ := m
  obtain rfl : lv = mv := h
  cases ln <;> cases mn <;> simp [Lit.neg]

@[simp] theorem positive_holds (σ : V → Bool) (v : V) : (positive v).holds σ ↔ σ v = true := Iff.rfl
@[simp] theorem negative_holds (σ : V → Bool) (v : V) : (negative v).holds σ ↔ σ v = false := Iff.rfl

theorem Lit.holds_neg {σ : V → Bool} {l : Lit V} : l.neg.holds σ ↔ ¬ l.holds σ := by
  obtain ⟨v, n⟩ := l
  cases n <;> simp [Lit.holds, Lit.satisfyingValue, Lit.neg]

/-- Two literals that hold together are not complementary. -/
theorem Lit.not_holds_of_neg {σ : V → Bool} {l : Lit V} (h : l.neg.holds σ) : ¬ l.holds σ :=
  Lit.holds_neg.mp h

theorem not_clauseHolds {σ : V → Bool} {c : List (Lit V)} (h : ∀ l ∈ c, ¬ l.holds σ) :
    ¬ ClauseHolds σ c := fun ⟨l, hl, hh⟩ => h l hl hh

end Sat
