import Resolvo.Lib.Sat

/-!
# `Lib.Binary` — at most one of many variables, by numbering them in binary

Number the variables of a list and give every bit of the numbers a helper variable. If a true variable
fixes every helper to its own bit, two true variables have the same bits, so they are the same variable;
and a single true variable says what the helpers have to be.
-/

namespace Sat

variable {V : Type}

/-- A true variable fixes the helpers to the bits of its number. -/
def FixesBits (σ : V → Bool) (vars helpers : List V) : Prop :=
  ∀ (i j : Nat) v h, vars[j]? = some v → helpers[i]? = some h → σ v = true → σ h = j.testBit i

/-- At most one of the variables is true. -/
def AtMostOne (σ : V → Bool) (vars : List V) : Prop :=
  ∀ v ∈ vars, ∀ w ∈ vars, σ v = true → σ w = true → v = w

/-- Numbers that fit into `n` bits are equal if their bits are. -/
theorem eq_of_low_bits {n j k : Nat} (hj : j < 2 ^ n) (hk : k < 2 ^ n)
    (h : ∀ i < n, j.testBit i = k.testBit i) : j = k := by
  refine Nat.eq_of_testBit_eq fun i => ?_
  by_cases hi : i < n
  · exact h i hi
  · have hle : 2 ^ n ≤ 2 ^ i := Nat.pow_le_pow_right Nat.two_pos (Nat.le_of_not_lt hi)
    rw [Nat.testBit_lt_two_pow (hj.trans_le hle), Nat.testBit_lt_two_pow (hk.trans_le hle)]

/-- **With enough helpers, fixed bits mean at most one true variable.** -/
theorem FixesBits.atMostOne {σ : V → Bool} {vars helpers : List V} (h : FixesBits σ vars helpers)
    (hcap : vars.length ≤ 2 ^ helpers.length) : AtMostOne σ vars := by
  intro v hv w hw hvσ hwσ
  obtain ⟨j, hj, rfl⟩ := List.mem_iff_getElem.mp hv
  obtain ⟨k, hk, rfl⟩ := List.mem_iff_getElem.mp hw
  have hbits : ∀ i < helpers.length, j.testBit i = k.testBit i := by
    intro i hi
    have hhelper := List.getElem?_eq_getElem hi
    rw [← h i j _ _ (List.getElem?_eq_getElem hj) hhelper hvσ,
      ← h i k _ _ (List.getElem?_eq_getElem hk) hhelper hwσ]
  obtain rfl : j = k := eq_of_low_bits (hj.trans_le hcap) (hk.trans_le hcap) hbits
  rfl

/-- The bits of the true variable fix the helpers. -/
theorem AtMostOne.fixesBits {σ : V → Bool} {vars helpers : List V} (h : AtMostOne σ vars)
    (hnodup : vars.Nodup)
    (hbits : ∀ (i : Nat) g, helpers[i]? = some g →
      (σ g = true ↔ ∃ (j : Nat) (v : V), vars[j]? = some v ∧ σ v = true ∧ j.testBit i = true)) :
    FixesBits σ vars helpers := by
  intro i j v g hj hi hv
  have hiff := hbits i g hi
  by_cases hbit : j.testBit i = true
  · rw [hbit]
    exact hiff.mpr ⟨j, v, hj, hv, hbit⟩
  · -- another true variable would be the same one, at the same place
    rw [Bool.not_eq_true] at hbit
    rw [hbit, ← Bool.not_eq_true]
    intro hg
    obtain ⟨k, w, hk, hw, hkbit⟩ := hiff.mp hg
    obtain rfl := h v (List.mem_of_getElem? hj) w (List.mem_of_getElem? hk) hv hw
    obtain ⟨hjlt, hjv⟩ := List.getElem?_eq_some_iff.mp hj
    obtain ⟨hklt, hkv⟩ := List.getElem?_eq_some_iff.mp hk
    have heq : j = k := (hnodup.getElem_inj_iff).mp (hjv.trans hkv.symm)
    rw [heq, hkbit] at hbit
    cases hbit

end Sat
