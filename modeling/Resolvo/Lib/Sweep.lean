import Mathlib

/-!
# `Lib.Sweep` — one pass of a monotone operator along an order

`run` goes through a list once and collects the elements a monotone operator accepts on account of what
was collected before. It computes a fixed point of the operator exactly when the order carries it: every
element of the fixed point must be accepted on account of the elements of the fixed point that come
before it (`Supported`).
-/

namespace Sweep

variable {α : Type} [DecidableEq α] {accepts : Finset α → α → Bool} {init : Finset α} {order : List α}

/-- Go through `order` and collect what is accepted. -/
def run (accepts : Finset α → α → Bool) (init : Finset α) (order : List α) : Finset α :=
  order.foldl (fun collected x => if accepts collected x then insert x collected else collected) init

/-- `y` comes before `x` in the list. -/
def Before (order : List α) (y x : α) : Prop := ∃ front back, order = front ++ x :: back ∧ y ∈ front

/-- The elements of a set that come before `x`, together with those given at the start. -/
def before (init : Finset α) (order : List α) (X : Set α) (x : α) : Set α :=
  {y | y ∈ init ∨ y ∈ X ∧ Before order y x}

/-- Every element of the set, beyond those given, is accepted on account of those before it. -/
def Supported (F : Set α →o Set α) (init : Finset α) (order : List α) (X : Set α) : Prop :=
  ∀ x ∈ X, x ∈ init ∨ x ∈ order ∧ x ∈ F (before init order X x)

omit [DecidableEq α] in
/-- In a list without repetitions an element stands behind one prefix only. -/
theorem prefix_unique {x : α} {front back l l' : List α} (hnodup : order.Nodup)
    (h : order = front ++ x :: back) (h' : order = l ++ x :: l') : front = l := by
  rw [h] at hnodup
  have hnot := (List.nodup_cons.mp (List.perm_middle.nodup_iff.mp hnodup)).1
  have hfront : x ∉ front := fun hx => hnot (List.mem_append_left _ hx)
  have hback : x ∉ back := fun hx => hnot (List.mem_append_right _ hx)
  exact ((List.append_cons_inj_of_notMem hfront hback).mp (h.symm.trans h')).1

theorem run_append (accepts : Finset α → α → Bool) (init : Finset α) (l : List α) (x : α) :
    run accepts init (l ++ [x])
      = if accepts (run accepts init l) x then insert x (run accepts init l)
        else run accepts init l := by
  unfold run
  rw [List.foldl_append]
  rfl

theorem init_subset (accepts : Finset α → α → Bool) (init : Finset α) (l : List α) :
    init ⊆ run accepts init l := by
  induction l using List.reverseRecOn with
  | nil => exact Finset.Subset.refl _
  | append_singleton l x ih =>
    rw [run_append]
    split
    · exact ih.trans (Finset.subset_insert _ _)
    · exact ih

theorem mem_run_or {x : α} {l : List α} (h : x ∈ run accepts init l) : x ∈ init ∨ x ∈ l := by
  induction l using List.reverseRecOn with
  | nil => exact .inl h
  | append_singleton l y ih =>
    rw [run_append] at h
    split at h
    · rcases Finset.mem_insert.mp h with rfl | h
      · exact .inr (by simp)
      · exact (ih h).imp_right fun hx => List.mem_append_left _ hx
    · exact (ih h).imp_right fun hx => List.mem_append_left _ hx

/-- What is collected along a prefix stays collected. -/
theorem run_mono (accepts : Finset α → α → Bool) (init : Finset α) (l l' : List α) :
    run accepts init l ⊆ run accepts init (l ++ l') := by
  induction l' using List.reverseRecOn with
  | nil =>
    rw [List.append_nil]
  | append_singleton l' x ih =>
    rw [← List.append_assoc, run_append]
    split
    · exact ih.trans (Finset.subset_insert _ _)
    · exact ih

section Operator

variable {F : Set α →o Set α} (haccepts : ∀ s, ∀ x ∈ order, accepts s x = true ↔ x ∈ F ↑s)

include haccepts

/-- What one pass collects is supported along the order. -/
theorem supported_run : Supported F init order ↑(run accepts init order) := by
  suffices h : ∀ l l', order = l ++ l' → ∀ x ∈ run accepts init l,
      x ∈ init ∨ x ∈ l ∧ x ∈ F (before init order (run accepts init order) x) by
    intro x hx
    exact h order [] (by rw [List.append_nil]) x hx
  intro l
  induction l using List.reverseRecOn with
  | nil =>
    intro l' _ x hx
    exact .inl hx
  | append_singleton l y ih =>
    intro l' horder x hx
    rw [List.append_assoc] at horder
    have hold := ih ([y] ++ l') horder
    rw [run_append] at hx
    by_cases hy : accepts (run accepts init l) y = true
    · rw [if_pos hy] at hx
      rcases Finset.mem_insert.mp hx with rfl | hx
      · refine .inr ⟨by simp, ?_⟩
        refine F.monotone ?_ ((haccepts _ _ (by rw [horder]; simp)).mp hy)
        intro z hz
        have hz' : z ∈ run accepts init l := hz
        rcases mem_run_or hz' with hinit | hl
        · exact .inl hinit
        · refine .inr ⟨?_, l, l', horder, hl⟩
          rw [horder]
          exact run_mono accepts init l _ hz'
      · exact (hold x hx).imp_right fun h => ⟨List.mem_append_left _ h.1, h.2⟩
    · rw [if_neg hy] at hx
      exact (hold x hx).imp_right fun h => ⟨List.mem_append_left _ h.1, h.2⟩

/-- One pass along an order without repetitions collects every supported set. -/
theorem Supported.subset_run (hnodup : order.Nodup) {X : Set α} (h : Supported F init order X) :
    X ⊆ ↑(run accepts init order) := by
  suffices hpre : ∀ l l', order = l ++ l' → ∀ x ∈ X, x ∈ l → x ∈ run accepts init l by
    intro x hx
    rcases h x hx with hinit | ⟨hmem, -⟩
    · exact init_subset accepts init order hinit
    · exact hpre order [] (by rw [List.append_nil]) x hx hmem
  intro l
  induction l using List.reverseRecOn with
  | nil =>
    intro l' _ x _ hx
    cases hx
  | append_singleton l y ih =>
    intro l' horder x hx hmem
    rw [List.append_assoc] at horder
    rcases List.mem_append.mp hmem with hl | hy
    · exact run_mono accepts init l [y] (ih ([y] ++ l') horder x hx hl)
    · obtain rfl : x = y := List.mem_singleton.mp hy
      rcases h x hx with hinit | ⟨-, hF⟩
      · exact init_subset accepts init _ hinit
      · have haccept : accepts (run accepts init l) x = true := by
          refine (haccepts _ _ (by rw [horder]; simp)).mpr (F.monotone ?_ hF)
          rintro z (hz | ⟨hz, front, back, hsplit, hfront⟩)
          · exact init_subset accepts init l hz
          · -- the element occurs once, so what stands before it is the prefix
            have hfront' : front = l := prefix_unique hnodup hsplit horder
            subst hfront'
            exact ih ([x] ++ l') horder z hz hfront
        rw [run_append, if_pos haccept]
        exact Finset.mem_insert_self _ _

/-- **One pass computes a larger set exactly when the order supports it.** -/
theorem run_eq_iff (hnodup : order.Nodup) {X : Set α} (hsub : ↑(run accepts init order) ⊆ X) :
    ↑(run accepts init order) = X ↔ Supported F init order X := by
  constructor
  · intro heq
    rw [← heq]
    exact supported_run haccepts
  · intro h
    exact Set.Subset.antisymm hsub (h.subset_run haccepts hnodup)

/-- Without anything given, what is collected lies in the greatest fixed point. -/
theorem run_subset_gfp : ↑(run accepts ∅ order) ⊆ F.gfp := by
  refine F.le_gfp ?_
  intro x hx
  rcases supported_run haccepts x hx with hinit | ⟨-, hF⟩
  · cases hinit
  · refine F.monotone ?_ hF
    rintro y (hy | ⟨hy, -⟩)
    · cases hy
    · exact hy

/-- What is collected lies in every fixed set that holds what was given. -/
theorem run_subset_of_le {X : Set α} (hinit : ↑init ⊆ X) (hX : F X ⊆ X) :
    ↑(run accepts init order) ⊆ X := by
  suffices h : ∀ l l', order = l ++ l' → (↑(run accepts init l) : Set α) ⊆ X from
    h order [] (by rw [List.append_nil])
  intro l
  induction l using List.reverseRecOn with
  | nil =>
    intro _ _
    exact hinit
  | append_singleton l x ih =>
    intro l' horder
    rw [List.append_assoc] at horder
    have hl := ih ([x] ++ l') horder
    rw [run_append]
    split
    · rename_i haccept
      rw [Finset.coe_insert]
      refine Set.insert_subset ?_ hl
      exact hX (F.monotone hl ((haccepts _ _ (by rw [horder]; simp)).mp haccept))
    · exact hl

end Operator

end Sweep
