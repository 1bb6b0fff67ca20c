import Mathlib.Algebra.Order.BigOperators.Group.List
import Mathlib.Data.List.Shortlex
import Mathlib.Order.WithBot

/-!
# `Lib.Progress` — measures that only ever shrink

What a search has left to visit is priced by the sum over the elements that are left. What it has found is a
sequence of bounded length that it extends, or cuts back to put a smaller entry in the place of the first one
it cut: however much is thrown away each time, this cannot go on forever.
-/

namespace Progress

variable {α : Type} {l l' : List α} {n : Nat}

/-! ## What is left -/

/-- A stricter filter leaves out the summand of an element. -/
theorem sum_map_filter_add_le {l : List α} {a : α} (ha : a ∈ l) {p q : α → Bool}
    (hqp : ∀ x, q x = true → p x = true) (hp : p a = true) (hq : q a = false) (f : α → Nat) :
    ((l.filter q).map f).sum + f a ≤ ((l.filter p).map f).sum := by
  have hle : ∀ l : List α, ((l.filter q).map f).sum ≤ ((l.filter p).map f).sum := fun l =>
    ((List.monotone_filter_right l hqp).map f).sum_le_sum fun _ _ => Nat.zero_le _
  induction l with
  | nil => cases ha
  | cons b l ih =>
    by_cases hab : b = a
    · subst hab
      have hrest := hle l
      simp only [List.filter_cons, hp, hq, if_true, Bool.false_eq_true, if_false, List.map_cons, List.sum_cons]
      omega
    · have hrest := ih ((List.mem_cons.mp ha).resolve_left (Ne.symm hab))
      rw [List.filter_cons, List.filter_cons]
      by_cases hqb : q b = true
      · simp only [hqb, hqp b hqb, if_true, List.map_cons, List.sum_cons]
        omega
      · rw [if_neg hqb]
        by_cases hpb : p b = true
        · rw [if_pos hpb, List.map_cons, List.sum_cons]
          omega
        · rw [if_neg hpb]
          exact hrest

/-! ## Sequences -/

/-- The sequence, filled up to a given length with an entry that is larger than all others. -/
def pad (n : Nat) (l : List α) : List (WithTop α) :=
  l.map WithTop.some ++ List.replicate (n - l.length) ⊤

theorem pad_length (h : l.length ≤ n) : (pad n l).length = n := by
  unfold pad
  rw [List.length_append, List.length_map, List.length_replicate]
  omega

variable [LT α]

/-- `l'` is longer than `l`, or has a smaller entry where the two differ first. -/
def Improves (l l' : List α) : Prop :=
  ∃ (p : List α) (a : α) (r : List α), l' = p ++ a :: r ∧ (l = p ∨ ∃ b r', l = p ++ b :: r' ∧ a < b)

theorem Improves.append {r : List α} (h : r ≠ []) : Improves l (l ++ r) := by
  obtain ⟨a, r, rfl⟩ := List.exists_cons_of_ne_nil h
  exact ⟨l, a, r, rfl, .inl rfl⟩

theorem Improves.extended (h : l <+: l') (hne : l' ≠ l) : Improves l l' := by
  obtain ⟨r, rfl⟩ := h
  apply Improves.append
  intro hr
  exact hne (by rw [hr, List.append_nil])

/-- **Cutting back**: what is left of an extension, with an entry that is smaller than the one it displaces. -/
theorem Improves.cut {longer p : List α} {a : α} (hl : l <+: longer) (hp : p <+: longer)
    (hsmaller : ∀ b, l[p.length]? = some b → a < b) : Improves l (p ++ [a]) := by
  rcases Nat.lt_or_ge p.length l.length with hlt | hge
  · -- an entry of the old sequence is displaced
    have hprefix : p <+: l := List.prefix_of_prefix_length_le hp hl hlt.le
    obtain ⟨r, rfl⟩ := hprefix
    cases r with
    | nil => simp at hlt
    | cons b r' =>
        refine ⟨p, a, [], rfl, .inr ⟨b, r', rfl, hsmaller b ?_⟩⟩
        simp
  · obtain ⟨r, rfl⟩ := List.prefix_of_prefix_length_le hl hp hge
    rw [List.append_assoc]
    apply Improves.append
    simp

/-- A sequence that improves gets smaller. -/
theorem Improves.shortlex (h : Improves l l') (hl : l.length ≤ n) (hl' : l'.length ≤ n) :
    List.Shortlex (· < ·) (pad n l') (pad n l) := by
  apply List.Shortlex.of_lex
  · rw [pad_length hl, pad_length hl']
  · obtain ⟨p, a, r, rfl, rfl | ⟨b, r', rfl, hlt⟩⟩ := h
    · -- a new entry replaces the filling
      have hlen : l.length < n := by
        rw [List.length_append, List.length_cons] at hl'
        omega
      obtain ⟨k, hk⟩ := Nat.exists_eq_succ_of_ne_zero (Nat.sub_ne_zero_of_lt hlen)
      unfold pad
      rw [hk, List.replicate_succ, List.map_append, List.append_assoc, List.map_cons]
      exact List.Lex.append_left _ (.rel (WithTop.coe_lt_top a)) _
    · unfold pad
      rw [List.map_append, List.map_append, List.append_assoc, List.append_assoc, List.map_cons, List.map_cons]
      exact List.Lex.append_left _ (.rel (WithTop.coe_lt_coe.mpr hlt)) _

/-- The sequences of a bounded length cannot improve forever. -/
theorem shortlex_wellFounded : WellFounded (List.Shortlex ((· < ·) : WithTop Nat → WithTop Nat → Prop)) :=
  List.Shortlex.wf wellFounded_lt

/-- A sequence of states that gets smaller until it stops does stop. -/
theorem stops {β : Type} {r : β → β → Prop} (hr : WellFounded r) (f : Nat → β) {stopped : Nat → Prop}
    (h : ∀ m, stopped m ∨ r (f (m + 1)) (f m)) : ∃ m, stopped m := by
  have : IsWellFounded β r := ⟨hr⟩
  obtain ⟨m, hm⟩ := WellFounded.not_rel_apply_succ (r := r) f
  exact ⟨m, (h m).resolve_right hm⟩

end Progress
