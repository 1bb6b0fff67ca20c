import Mathlib

/-!
# `Lib.Fold` — rules for folds and related lists

An invariant that every round of a fold preserves holds of its result; a fold that can fail preserves it
up to the failure, and whatever a failing round guarantees is guaranteed of the failure.
-/

namespace List

variable {α β ε : Type}

/-- The invariant rule of `foldl`, with the element at hand. -/
theorem foldl_rule {f : β → α → β} (Inv : β → Prop) (l : List α) {b : β} (h : Inv b)
    (hstep : ∀ b, ∀ a ∈ l, Inv b → Inv (f b a)) : Inv (l.foldl f b) := by
  induction l generalizing b with
  | nil => exact h
  | cons a l ih =>
      exact ih (hstep b a mem_cons_self h) fun b a' ha' => hstep b a' (mem_cons_of_mem _ ha')

/-- Elements without an effect can be skipped. -/
theorem foldl_filter_of_noop {f : β → α → β} {p : α → Bool} (Inv : β → Prop)
    (l : List α) {b : β} (hb : Inv b) (hstep : ∀ b, ∀ a ∈ l, Inv b → Inv (f b a))
    (hnoop : ∀ b, ∀ a ∈ l, Inv b → p a = false → f b a = b) :
    (l.filter p).foldl f b = l.foldl f b := by
  induction l generalizing b with
  | nil => rfl
  | cons a l ih =>
      have hrest := fun {b : β} (hb : Inv b) => ih hb
        (fun b a' ha' => hstep b a' (mem_cons_of_mem _ ha'))
        fun b a' ha' => hnoop b a' (mem_cons_of_mem _ ha')
      cases hp : p a with
      | true =>
          rw [filter_cons_of_pos hp, foldl_cons, foldl_cons]
          exact hrest (hstep b a mem_cons_self hb)
      | false =>
          rw [filter_cons_of_neg (by simp [hp]), foldl_cons,
            hnoop b a mem_cons_self hb hp]
          exact hrest hb

/-- The invariant rule of `foldlM` for computations that can fail. -/
theorem foldlM_rule {f : β → α → Except ε β} (Inv : β → Prop) (Err : ε → Prop) (l : List α) {b : β}
    (h : Inv b)
    (hok : ∀ b, ∀ a ∈ l, Inv b → ∀ b', f b a = .ok b' → Inv b')
    (herr : ∀ b, ∀ a ∈ l, Inv b → ∀ e, f b a = .error e → Err e) :
    (∀ b', l.foldlM f b = .ok b' → Inv b') ∧ ∀ e, l.foldlM f b = .error e → Err e := by
  induction l generalizing b with
  | nil =>
      refine ⟨fun b' hb => ?_, fun e he => ?_⟩
      · simp only [foldlM_nil, pure, Except.pure, Except.ok.injEq] at hb
        exact hb ▸ h
      · simp [pure, Except.pure] at he
  | cons a l ih =>
      have hmem : a ∈ a :: l := mem_cons_self
      have htail : ∀ a' ∈ l, a' ∈ a :: l := fun a' ha' => mem_cons_of_mem _ ha'
      simp only [foldlM_cons, bind, Except.bind]
      cases hf : f b a with
      | ok b₁ =>
          exact ih (hok b a hmem h b₁ hf) (fun b a' ha' => hok b a' (htail a' ha'))
            fun b a' ha' => herr b a' (htail a' ha')
      | error e =>
          refine ⟨fun b' hb => (by cases hb), fun e' he => ?_⟩
          simp only [Except.error.injEq] at he
          exact he ▸ herr b a hmem h e hf

/-- Every element of the left list is related to one of the right list. -/
theorem Forall₂.exists_of_mem_left {R : α → β → Prop} {l : List α} {m : List β} (h : Forall₂ R l m)
    {a : α} (ha : a ∈ l) : ∃ b ∈ m, R a b := by
  induction h with
  | nil => cases ha
  | cons hab _ ih =>
      rcases mem_cons.mp ha with rfl | ha
      · exact ⟨_, mem_cons_self, hab⟩
      · obtain ⟨b, hb, hr⟩ := ih ha
        exact ⟨b, mem_cons_of_mem _ hb, hr⟩

/-- Every element of the right list is related to one of the left list. -/
theorem Forall₂.exists_of_mem_right {R : α → β → Prop} {l : List α} {m : List β} (h : Forall₂ R l m)
    {b : β} (hb : b ∈ m) : ∃ a ∈ l, R a b := h.flip.exists_of_mem_left hb

/-- A monadic filter whose test never fails is a filter. -/
theorem filterM_eq_some {α : Type} {f : α → Option Bool} {g : α → Bool} {l : List α}
    (h : ∀ a ∈ l, f a = some (g a)) : l.filterM f = some (l.filter g) := by
  have haux : ∀ acc : List α, l.filterAuxM f acc = some ((l.filter g).reverse ++ acc) := by
    induction l with
    | nil =>
      intro acc
      rfl
    | cons a l ih =>
      intro acc
      unfold filterAuxM
      rw [h a mem_cons_self]
      show l.filterAuxM f (bif g a then a :: acc else acc) = _
      rw [ih fun b hb => h b (mem_cons_of_mem _ hb)]
      cases hg : g a with
      | true => simp [hg]
      | false => simp [hg]
  unfold List.filterM
  rw [haux]
  simp

/-- A monadic map that never fails is a map. -/
theorem mapM_eq_some_map {α β : Type} {f : α → Option β} {g : α → β} {l : List α}
    (h : ∀ a ∈ l, f a = some (g a)) : l.mapM f = some (l.map g) := by
  induction l with
  | nil => rfl
  | cons a l ih =>
    rw [mapM_cons, h a mem_cons_self, ih fun b hb => h b (mem_cons_of_mem _ hb)]
    rfl

theorem exists_of_mem_mapM {α β : Type} {f : α → Option β} {l : List α} {l' : List β}
    (h : l.mapM f = some l') {b : β} (hb : b ∈ l') : ∃ a ∈ l, f a = some b := by
  induction l generalizing l' with
  | nil =>
    cases h
    cases hb
  | cons a l ih =>
    rw [mapM_cons] at h
    obtain ⟨c, hc, h⟩ := Option.bind_eq_some_iff.mp h
    obtain ⟨rest, hrest, h⟩ := Option.bind_eq_some_iff.mp h
    cases h
    rcases mem_cons.mp hb with rfl | hb
    · exact ⟨a, mem_cons_self, hc⟩
    · obtain ⟨a', ha', hfa⟩ := ih hrest hb
      exact ⟨a', mem_cons_of_mem _ ha', hfa⟩

/-- Replacing an element exchanges its summand. -/
theorem sum_map_set {α : Type} {l : List α} {i : Nat} {a : α} (h : l[i]? = some a) (f : α → Nat) (b : α) :
    ((l.set i b).map f).sum + f a = (l.map f).sum + f b := by
  induction l generalizing i with
  | nil => cases h
  | cons c l ih =>
    cases i with
    | zero =>
      cases h
      simp only [set_cons_zero, map_cons, sum_cons]
      omega
    | succ i =>
      have hrest := ih (i := i) h
      simp only [set_cons_succ, map_cons, sum_cons]
      omega

/-- Removing an element takes its summand away. -/
theorem sum_map_eraseIdx {α : Type} {l : List α} {i : Nat} {a : α} (h : l[i]? = some a) (f : α → Nat) :
    ((l.eraseIdx i).map f).sum + f a = (l.map f).sum := by
  induction l generalizing i with
  | nil => cases h
  | cons c l ih =>
    cases i with
    | zero =>
      cases h
      simp only [eraseIdx_cons_zero, map_cons, sum_cons]
      omega
    | succ i =>
      have hrest := ih (i := i) h
      simp only [eraseIdx_cons_succ, map_cons, sum_cons]
      omega

/-- A fold that raises a flag as soon as an element has an effect: if the flag is not raised in the end, no
    element had an effect. -/
theorem foldl_flag {α β : Type} {f : Bool × β → α → Bool × β} (Quiet : β → α → Prop)
    (hraised : ∀ b a, (f (true, b) a).1 = true)
    (hstep : ∀ b a, (f (false, b) a = (false, b) ∧ Quiet b a) ∨ (f (false, b) a).1 = true)
    (l : List α) (b : β) (h : (l.foldl f (false, b)).1 = false) :
    (l.foldl f (false, b)).2 = b ∧ ∀ a ∈ l, Quiet b a := by
  have hstays : ∀ (l : List α) (r : Bool × β), r.1 = true → (l.foldl f r).1 = true := by
    intro l
    induction l with
    | nil => exact fun r hr => hr
    | cons a l ih =>
      rintro ⟨flag, b⟩ rfl
      exact ih _ (hraised b a)
  induction l with
  | nil => exact ⟨rfl, fun a ha => by cases ha⟩
  | cons a l ih =>
    rw [foldl_cons] at h ⊢
    rcases hstep b a with ⟨heq, hquiet⟩ | hraise
    · rw [heq] at h ⊢
      obtain ⟨hb, hall⟩ := ih h
      refine ⟨hb, fun a' ha' => ?_⟩
      rcases mem_cons.mp ha' with rfl | ha'
      · exact hquiet
      · exact hall a' ha'
    · rw [hstays l _ hraise] at h
      cases h

end List
