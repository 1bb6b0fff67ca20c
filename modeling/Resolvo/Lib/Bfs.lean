import Mathlib.Data.Finset.Card
import Mathlib.Logic.Relation

/-!
# `Lib.Bfs` — breadth-first search

Nodes are taken off a queue, and their neighbours are put on it when they are seen for the first time. What was
discovered is at any time what was taken off the queue followed by what is on it. In a finite set that the
neighbours do not leave, the search takes exactly the nodes that are reached from its start.
-/

namespace Bfs

variable {V : Type} [DecidableEq V]

/-- The nodes that were taken off the queue, and the queue. -/
structure State (V : Type) where
  visited : List V
  queue : List V

def State.discovered (s : State V) : List V := s.visited ++ s.queue

def State.discover (s : State V) (n : V) : State V :=
  if n ∈ s.discovered then s else { s with queue := s.queue ++ [n] }

def State.next (neighbors : V → List V) (s : State V) : State V :=
  match s.queue with
  | [] => s
  | n :: queue => (neighbors n).foldl State.discover { visited := s.visited ++ [n], queue }

def run (neighbors : V → List V) : Nat → State V → State V
  | 0, s => s
  | fuel + 1, s => run neighbors fuel (s.next neighbors)

/-- The nodes that are visited from the start. -/
def visit (neighbors : V → List V) (fuel : Nat) (start : V) : List V :=
  (run neighbors fuel { visited := [], queue := [start] }).visited

section Search

variable {neighbors : V → List V} {s : State V} {start n m : V} {l : List V} {bound : Finset V}

/-- `m` is reached from `n`. -/
def Reaches (neighbors : V → List V) : V → V → Prop := Relation.ReflTransGen fun n m => m ∈ neighbors n

/-! ## Discovering -/

theorem mem_discover : m ∈ (s.discover n).discovered ↔ m ∈ s.discovered ∨ m = n := by
  unfold State.discover
  split
  · next hn =>
      constructor
      · exact .inl
      · rintro (h | rfl)
        · exact h
        · exact hn
  · unfold State.discovered
    rw [← List.append_assoc, List.mem_append, List.mem_singleton]

theorem discover_nodup (h : s.discovered.Nodup) (n : V) : (s.discover n).discovered.Nodup := by
  unfold State.discover
  split
  · exact h
  · next hn =>
      show (s.visited ++ (s.queue ++ [n])).Nodup
      rw [← List.append_assoc, ← List.concat_eq_append]
      exact h.concat hn

theorem discover_visited (s : State V) (n : V) : (s.discover n).visited = s.visited := by
  unfold State.discover
  split <;> rfl

theorem mem_discoverAll (l : List V) (s : State V) :
    m ∈ (l.foldl State.discover s).discovered ↔ m ∈ s.discovered ∨ m ∈ l := by
  induction l generalizing s with
  | nil => simp
  | cons n l ih =>
      rw [List.foldl_cons, ih, mem_discover, List.mem_cons]
      exact or_assoc

theorem discoverAll_nodup (l : List V) {s : State V} (h : s.discovered.Nodup) :
    (l.foldl State.discover s).discovered.Nodup := by
  induction l generalizing s with
  | nil => exact h
  | cons n l ih => exact ih (discover_nodup h n)

theorem discoverAll_visited (l : List V) (s : State V) : (l.foldl State.discover s).visited = s.visited := by
  induction l generalizing s with
  | nil => rfl
  | cons n l ih =>
      rw [List.foldl_cons, ih]
      exact discover_visited s n

/-! ## The search -/

/-- What was discovered is reached from the start, and the neighbours of what was visited were discovered. -/
structure Inv (neighbors : V → List V) (start : V) (s : State V) : Prop where
  nodup : s.discovered.Nodup
  started : start ∈ s.discovered
  sound : ∀ n ∈ s.discovered, Reaches neighbors start n
  closed : ∀ n ∈ s.visited, ∀ m ∈ neighbors n, m ∈ s.discovered

omit [DecidableEq V] in
theorem Inv.init (neighbors : V → List V) (start : V) :
    Inv neighbors start { visited := [], queue := [start] } where
  nodup := List.nodup_singleton start
  started := List.mem_singleton_self start
  sound := by
    intro n hn
    obtain rfl := List.mem_singleton.mp hn
    exact .refl
  closed := by
    intro n hn
    cases hn

/-- **One step** visits the head of the queue. -/
theorem Inv.next (h : Inv neighbors start s) : Inv neighbors start (s.next neighbors) := by
  unfold State.next
  cases hq : s.queue with
  | nil => exact h
  | cons n queue =>
      have hdiscovered : State.discovered { visited := s.visited ++ [n], queue } = s.discovered := by
        unfold State.discovered
        rw [hq, List.append_assoc]
        rfl
      have hn : n ∈ s.discovered := by
        rw [← hdiscovered]
        exact List.mem_append_left _ (List.mem_append_right _ (List.mem_singleton_self n))
      have hmem : ∀ m, m ∈ ((neighbors n).foldl State.discover
          { visited := s.visited ++ [n], queue }).discovered ↔ m ∈ s.discovered ∨ m ∈ neighbors n := by
        intro m
        rw [mem_discoverAll, hdiscovered]
      refine ⟨discoverAll_nodup _ (hdiscovered ▸ h.nodup), (hmem start).mpr (.inl h.started), ?_, ?_⟩
      · intro m hm
        rcases (hmem m).mp hm with hm | hm
        · exact h.sound m hm
        · exact (h.sound n hn).tail hm
      · intro m hm k hk
        rw [discoverAll_visited] at hm
        refine (hmem k).mpr ?_
        rcases List.mem_append.mp hm with hm | hm
        · exact .inl (h.closed m hm k hk)
        · rw [List.mem_singleton.mp hm] at hk
          exact .inr hk

theorem Inv.run (h : Inv neighbors start s) (fuel : Nat) : Inv neighbors start (run neighbors fuel s) := by
  induction fuel generalizing s with
  | zero => exact h
  | succ fuel ih => exact ih h.next

/-- A step visits one more node, unless the queue is empty. -/
theorem next_visited (h : s.queue ≠ []) : (s.next neighbors).visited.length = s.visited.length + 1 := by
  unfold State.next
  cases hq : s.queue with
  | nil => exact absurd hq h
  | cons n queue =>
      show ((neighbors n).foldl State.discover _).visited.length = _
      rw [discoverAll_visited, List.length_append, List.length_singleton]

theorem run_of_empty (h : s.queue = []) (fuel : Nat) : run neighbors fuel s = s := by
  induction fuel with
  | zero => rfl
  | succ fuel ih =>
      have hnext : s.next neighbors = s := by
        unfold State.next
        rw [h]
      show run neighbors fuel (s.next neighbors) = s
      rw [hnext]
      exact ih

/-- The queue runs empty, or every step visits a node. -/
theorem run_visited (fuel : Nat) (s : State V) :
    (run neighbors fuel s).queue = [] ∨ (run neighbors fuel s).visited.length = s.visited.length + fuel := by
  induction fuel generalizing s with
  | zero => exact .inr rfl
  | succ fuel ih =>
      by_cases hq : s.queue = []
      · rw [run_of_empty hq]
        exact .inl hq
      · rcases ih (s.next neighbors) with h | h
        · exact .inl h
        · refine .inr (h.trans ?_)
          rw [next_visited hq]
          omega

omit [DecidableEq V] in
theorem Reaches.mem_of_closed (hstart : start ∈ bound) (hclosed : ∀ n ∈ bound, ∀ m ∈ neighbors n, m ∈ bound)
    (h : Reaches neighbors start n) : n ∈ bound := by
  induction h with
  | refl => exact hstart
  | tail _ hm ih => exact hclosed _ ih _ hm

/-- **The search visits exactly the nodes that are reached** from its start. -/
theorem mem_visit_iff (hstart : start ∈ bound) (hclosed : ∀ n ∈ bound, ∀ m ∈ neighbors n, m ∈ bound)
    {fuel : Nat} (hfuel : bound.card ≤ fuel) : n ∈ visit neighbors fuel start ↔ Reaches neighbors start n := by
  unfold visit
  have hinv := (Inv.init neighbors start).run fuel
  have hrun : (run neighbors fuel { visited := [], queue := [start] }).queue = [] ∨
      (run neighbors fuel { visited := [], queue := [start] }).visited.length = 0 + fuel := run_visited fuel _
  generalize run neighbors fuel { visited := [], queue := [start] } = s at hinv hrun ⊢
  have hempty : s.queue = [] := by
    rcases hrun with h | h
    · exact h
    · have hsub : s.discovered.toFinset ⊆ bound := by
        intro m hm
        exact (hinv.sound m (List.mem_toFinset.mp hm)).mem_of_closed hstart hclosed
      have hcard := Finset.card_le_card hsub
      rw [List.toFinset_card_of_nodup hinv.nodup, State.discovered, List.length_append] at hcard
      have hvisited : s.visited.length = fuel := by
        rw [h]
        exact Nat.zero_add fuel
      refine List.length_eq_zero_iff.mp ?_
      omega
  have hdiscovered : s.discovered = s.visited := by
    rw [State.discovered, hempty, List.append_nil]
  constructor
  · intro hn
    exact hinv.sound n (hdiscovered ▸ hn)
  · intro hn
    rw [← hdiscovered]
    induction hn with
    | refl => exact hinv.started
    | tail _ hm ih => exact hinv.closed _ (hdiscovered ▸ ih) _ hm

end Search

end Bfs
