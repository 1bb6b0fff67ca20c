import Mathlib

/-!
# `Lib.LinkedList` — singly linked lists stored in their nodes

A list is given by its head and a successor function: `none` for what is no node, `some none` for a last
node. `Follows` says that following the links from the head visits exactly the listed nodes and ends.
The lemmas below are the effect of pushing a node onto the front and of unlinking one.
-/

namespace LinkedList

variable {α : Type} {next next' : α → Option (Option α)} {head : Option α} {l : List α}

/-- From `head` the links visit the nodes of the list, in this order, and end. -/
def Follows (next : α → Option (Option α)) : Option α → List α → Prop
  | none, [] => True
  | some a, b :: rest => a = b ∧ ∃ link, next b = some link ∧ Follows next link rest
  | _, _ => False

theorem Follows.head_eq (h : Follows next head l) : head = l.head? := by
  cases head with
  | none =>
    cases l with
    | nil => rfl
    | cons b rest => exact h.elim
  | some a =>
    cases l with
    | nil => exact h.elim
    | cons b rest => simp [h.1]

theorem follows_cons {a : α} {rest : List α} :
    Follows next (some a) (a :: rest) ↔ next a = some rest.head? ∧ Follows next rest.head? rest := by
  constructor
  · rintro ⟨-, link, hlink, hrest⟩
    have hhead := hrest.head_eq
    subst hhead
    exact ⟨hlink, hrest⟩
  · rintro ⟨hlink, hrest⟩
    exact ⟨rfl, _, hlink, hrest⟩

theorem follows_nil : Follows next none [] := trivial

/-- Where two successor functions agree on the nodes of a list, they visit the same list. -/
theorem Follows.congr (h : Follows next head l) (hsame : ∀ a ∈ l, next' a = next a) :
    Follows next' head l := by
  induction l generalizing head with
  | nil =>
    have hhead := h.head_eq
    subst hhead
    exact follows_nil
  | cons b rest ih =>
    have hhead := h.head_eq
    subst hhead
    obtain ⟨hlink, hrest⟩ := follows_cons.mp h
    refine follows_cons.mpr ⟨?_, ih hrest fun a ha => hsame a (List.mem_cons_of_mem _ ha)⟩
    rw [hsame b List.mem_cons_self]
    exact hlink

/-- What is visited is a node. -/
theorem Follows.isSome (h : Follows next head l) {a : α} (ha : a ∈ l) : (next a).isSome := by
  induction l generalizing head with
  | nil => cases ha
  | cons b rest ih =>
    have hhead := h.head_eq
    subst hhead
    obtain ⟨hlink, hrest⟩ := follows_cons.mp h
    rcases List.mem_cons.mp ha with rfl | ha
    · rw [hlink]
      rfl
    · exact ih hrest ha

/-- The links behind a visited node visit what comes after it. -/
theorem Follows.drop {before after : List α} {a : α} (h : Follows next head (before ++ a :: after)) :
    next a = some after.head? ∧ Follows next after.head? after := by
  induction before generalizing head with
  | nil =>
    have hhead := h.head_eq
    subst hhead
    exact follows_cons.mp h
  | cons b rest ih =>
    have hhead := h.head_eq
    subst hhead
    exact ih (follows_cons.mp h).2

/-- The links visit one list only. -/
theorem Follows.unique {l' : List α} (h : Follows next head l) (h' : Follows next head l') : l = l' := by
  induction l generalizing head l' with
  | nil =>
    have hhead := h'.head_eq
    rw [h.head_eq] at hhead
    cases l' with
    | nil => rfl
    | cons b rest => cases hhead
  | cons b rest ih =>
    have hhead := h'.head_eq
    rw [h.head_eq] at hhead
    cases l' with
    | nil => cases hhead
    | cons b' rest' =>
      obtain rfl : b = b' := Option.some.inj hhead
      have hhead := h.head_eq
      subst hhead
      obtain ⟨hlink, hrest⟩ := follows_cons.mp h
      obtain ⟨hlink', hrest'⟩ := follows_cons.mp h'
      have heq := Option.some.inj (hlink.symm.trans hlink')
      rw [← heq] at hrest'
      rw [ih hrest hrest']

/-- **No node is visited twice**: behind the same node the links visit the same rest, so a list that
    ends cannot come back to a node. -/
theorem Follows.nodup (h : Follows next head l) : l.Nodup := by
  induction l generalizing head with
  | nil => exact List.nodup_nil
  | cons b rest ih =>
    have hhead := h.head_eq
    subst hhead
    obtain ⟨hlink, hrest⟩ := follows_cons.mp h
    refine List.nodup_cons.mpr ⟨?_, ih hrest⟩
    intro hb
    obtain ⟨before, after, hsplit⟩ := List.append_of_mem hb
    rw [hsplit] at hrest
    obtain ⟨hlink', hafter⟩ := hrest.drop
    have heq := Option.some.inj (hlink.symm.trans hlink')
    rw [hsplit] at heq
    rw [heq] at hrest
    have hlength := congrArg List.length (hrest.unique hafter)
    simp at hlength
    omega

/-! ## Changes of the links -/

/-- A node in front of the list. -/
theorem Follows.push {a : α} (h : Follows next head l) (ha : next' a = some head)
    (hsame : ∀ b ∈ l, next' b = next b) : Follows next' (some a) (a :: l) := by
  have hl := h.congr hsame
  have hhead := hl.head_eq
  subst hhead
  exact follows_cons.mpr ⟨ha, hl⟩

/-- The head is unlinked by moving the head to its successor. -/
theorem Follows.unlinkHead {a : α} {rest : List α} (h : Follows next head (a :: rest))
    (hsame : ∀ b ∈ rest, next' b = next b) : Follows next' rest.head? rest := by
  have hdrop : Follows next head ([] ++ a :: rest) := h
  exact hdrop.drop.2.congr hsame

/-- A node behind another one is unlinked by linking the one before it to its successor. -/
theorem Follows.unlink {before after : List α} {previous current : α}
    (h : Follows next head (before ++ previous :: current :: after))
    (hprevious : next' previous = some after.head?)
    (hbefore : ∀ b ∈ before, next' b = next b) (hafter : ∀ b ∈ after, next' b = next b) :
    Follows next' head (before ++ previous :: after) := by
  induction before generalizing head with
  | nil =>
    have hhead := h.head_eq
    subst hhead
    have hrest : Follows next _ ([] ++ current :: after) := (follows_cons.mp h).2
    have htail : Follows next' after.head? after := hrest.drop.2.congr hafter
    exact follows_cons.mpr ⟨hprevious, htail⟩
  | cons b rest ih =>
    have hhead := h.head_eq
    subst hhead
    obtain ⟨hlink, hrest⟩ := follows_cons.mp h
    have htail : Follows next' (rest ++ previous :: current :: after).head? (rest ++ previous :: after) :=
      ih hrest fun b' hb' => hbefore b' (List.mem_cons_of_mem _ hb')
    refine follows_cons.mpr ⟨?_, ?_⟩
    · rw [hbefore b List.mem_cons_self, hlink]
      cases rest <;> rfl
    · have heq : (rest ++ previous :: current :: after).head? = (rest ++ previous :: after).head? := by
        cases rest <;> rfl
      rw [heq] at htail
      exact htail

end LinkedList
