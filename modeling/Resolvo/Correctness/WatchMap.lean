import Resolvo.Correctness.Mapping
import Resolvo.Lib.LinkedList
import Resolvo.Model.Search
import Resolvo.Model.WatchMap

/-!
# `Correctness.WatchMap` — the watch lists stay exact

The abstract view of the links is one list of clauses for each literal. `Represents` ties the links to
such a view: following them from the head of a literal visits its list, and every clause that watches the
literal is in it. Each operation keeps it, with the list of the new clause or of the moved watch changed
at the front; a cursor splits the list of its literal into what it has passed and what is to come.
-/

namespace Resolvo

open LinkedList

namespace WatchState

variable {s s' : WatchState} {l literal newWatch : Literal} {id : ClauseId} {w : WatchedLiterals}
  {c c' : WatchMapCursor}

/-- The clause watches the literal. -/
def Watching (s : WatchState) (id : ClauseId) (l : Literal) : Prop :=
  ∃ w, s.watched id = some w ∧ ∃ i, w.watchedLiterals i = l

/-- The head of the list of a literal. -/
def head (s : WatchState) (l : Literal) : Option ClauseId := s.watchMap.map.get l

/-- The link out of a clause in the list of a literal, at the index that watches the literal. -/
def link (s : WatchState) (l : Literal) (id : ClauseId) : Option (Option ClauseId) :=
  (s.watched id).bind fun w => (w.watchIndex l).map w.nextWatches

/-- The links hold the listed clauses for every literal, and nothing else. -/
structure Represents (s : WatchState) (lists : Literal → List ClauseId) : Prop where
  follows : ∀ l, Follows (s.link l) (s.head l) (lists l)
  watching : ∀ l id, s.Watching id l → id ∈ lists l
  distinct : ∀ id w, s.watched id = some w → w.watchedLiterals 0 ≠ w.watchedLiterals 1

/-! ## Indices and links -/

theorem watchIndex_eq_some {i : Fin 2} (h : w.watchIndex l = some i) : w.watchedLiterals i = l := by
  unfold WatchedLiterals.watchIndex at h
  split at h
  · cases h
    assumption
  · split at h
    · cases h
      assumption
    · cases h

/-- Where the two literals differ, the index a literal is watched at is found by comparing. -/
theorem watchIndex_watchedLiterals (hne : w.watchedLiterals 0 ≠ w.watchedLiterals 1) (i : Fin 2) :
    w.watchIndex (w.watchedLiterals i) = some i := by
  unfold WatchedLiterals.watchIndex
  match i with
  | 0 => simp
  | 1 => simp [hne]

theorem link_eq_some {n : Option ClauseId} (h : s.link l id = some n) :
    ∃ w i, s.watched id = some w ∧ w.watchIndex l = some i ∧ w.nextWatches i = n := by
  unfold link at h
  rw [Option.bind_eq_some_iff] at h
  obtain ⟨w, hw, h⟩ := h
  rw [Option.map_eq_some_iff] at h
  obtain ⟨i, hi, hn⟩ := h
  exact ⟨w, i, hw, hi, hn⟩

theorem link_of {i : Fin 2} (hw : s.watched id = some w) (hi : w.watchIndex l = some i) :
    s.link l id = some (w.nextWatches i) := by
  unfold link
  rw [hw, Option.bind_some, hi, Option.map_some]

theorem watching_of_isSome (h : (s.link l id).isSome) : s.Watching id l := by
  obtain ⟨n, hn⟩ := Option.isSome_iff_exists.mp h
  obtain ⟨w, i, hw, hi, -⟩ := link_eq_some hn
  exact ⟨w, hw, i, watchIndex_eq_some hi⟩

theorem node_eq_some {n : WatchNode} (h : s.node l id = some n) :
    n.clauseId = id ∧ ∃ w, s.watched id = some w ∧ w.watchIndex l = some n.watchIndex := by
  unfold node at h
  split at h
  · cases h
  · rename_i w hw
    rw [Option.map_eq_some_iff] at h
    obtain ⟨i, hi, rfl⟩ := h
    exact ⟨rfl, w, hw, hi⟩

theorem node_of {i : Fin 2} (hw : s.watched id = some w) (hi : w.watchIndex l = some i) :
    s.node l id = some ⟨id, i⟩ := by
  unfold node
  simp [hw, hi]

theorem watched_lt (h : s.watched id = some w) : id < s.watches.length := by
  unfold watched at h
  rw [Option.join_eq_some_iff] at h
  exact (List.getElem?_eq_some_iff.mp h).1

theorem watched_setWatched (h : id < s.watches.length) (w : WatchedLiterals) (id' : ClauseId) :
    (s.setWatched id w).watched id' = if id' = id then some w else s.watched id' := by
  unfold setWatched watched
  by_cases heq : id' = id
  · subst heq
    simp [List.getElem?_set_self h]
  · simp [List.getElem?_set_ne (Ne.symm heq), heq]

@[simp] theorem head_setWatched (w : WatchedLiterals) : (s.setWatched id w).head = s.head := rfl

namespace Represents

variable {lists : Literal → List ClauseId}

/-- The list of a literal holds the clauses that watch it and no others. -/
theorem mem_iff (h : s.Represents lists) : id ∈ lists l ↔ s.Watching id l := by
  constructor
  · intro hid
    exact watching_of_isSome ((h.follows l).isSome hid)
  · intro hw
    exact h.watching l id hw

theorem node_of_mem (h : s.Represents lists) (hid : id ∈ lists l) :
    ∃ w i, s.watched id = some w ∧ w.watchIndex l = some i ∧ s.node l id = some ⟨id, i⟩ := by
  obtain ⟨w, hw, i, hi⟩ := h.mem_iff.mp hid
  have hindex := watchIndex_watchedLiterals (h.distinct id w hw) i
  rw [hi] at hindex
  exact ⟨w, i, hw, hindex, node_of hw hindex⟩

theorem empty : ({} : WatchState).Represents fun _ => [] where
  follows l := by
    have hhead : ({} : WatchState).head l = none := Mapping.get_new l
    rw [hhead]
    exact follows_nil
  watching l id hw := by
    obtain ⟨w, hw, -⟩ := hw
    cases hw
  distinct id w hw := by cases hw

end Represents

/-! ## Allocating a clause -/

/-- The lists after a clause was pushed onto the lists of the two literals it watches. -/
def started (lists : Literal → List ClauseId) (watched : Watches) (id : ClauseId) :
    Literal → List ClauseId :=
  fun l => if l = watched.1 ∨ l = watched.2 then id :: lists l else lists l

theorem watched_alloc_of_ne {watched : Option Watches} (hne : id ≠ s.watches.length) :
    (s.alloc watched).watched id = s.watched id := by
  unfold alloc WatchState.watched
  rcases Nat.lt_or_gt_of_ne hne with hlt | hgt
  · cases watched with
    | none => simp [List.getElem?_append_left hlt]
    | some watched => simp [List.getElem?_append_left hlt]
  · have hge : s.watches.length + 1 ≤ id := hgt
    cases watched with
    | none => simp [List.getElem?_eq_none (Nat.le_of_lt hgt), List.getElem?_eq_none, hge]
    | some watched => simp [List.getElem?_eq_none (Nat.le_of_lt hgt), List.getElem?_eq_none, hge]

theorem watched_length : s.watched s.watches.length = none := by
  unfold watched
  simp

theorem watched_alloc_none (id : ClauseId) : (s.alloc none).watched id = s.watched id := by
  by_cases heq : id = s.watches.length
  · subst heq
    rw [watched_length]
    unfold alloc watched
    simp
  · exact watched_alloc_of_ne heq

/-- What `start_watching` leaves behind for a new clause: its links are the old heads, and it is the head
    of the lists of both literals. -/
theorem alloc_some {a b : Literal} (hne : a ≠ b) :
    (s.alloc (some (a, b))).watched s.watches.length
        = some ⟨![a, b], ![s.head a, s.head b]⟩ ∧
      ∀ l, (s.alloc (some (a, b))).head l
        = if l = a ∨ l = b then some s.watches.length else s.head l := by
  constructor
  · unfold alloc watched WatchMap.startWatching WatchedLiterals.fromInitialWatches head
    simp only [List.finRange_succ, List.finRange_zero, List.map_nil, List.map_cons, List.foldl_cons,
      List.foldl_nil, Matrix.cons_val_zero, Fin.succ_zero_eq_one, Matrix.cons_val_one,
      Mapping.get_insert, if_neg (Ne.symm hne), List.getElem?_concat_length, Option.join_some]
    congr 2
    funext i
    match i with
    | 0 => simp
    | 1 => simp
  · intro l
    unfold alloc WatchMap.startWatching WatchedLiterals.fromInitialWatches head
    simp only [List.finRange_succ, List.finRange_zero, List.map_nil, List.map_cons, List.foldl_cons,
      List.foldl_nil, Matrix.cons_val_zero, Fin.succ_zero_eq_one, Matrix.cons_val_one,
      Mapping.get_insert]
    by_cases ha : l = a
    · simp [ha]
    · by_cases hb : l = b
      · simp [hb]
      · simp [ha, hb]

namespace Represents

variable {lists : Literal → List ClauseId}

/-- A change that leaves the watches of every clause and the heads alone changes no list. -/
theorem congr (h : s.Represents lists) (hhead : s'.head = s.head)
    (hwatched : ∀ id, s'.watched id = s.watched id) : s'.Represents lists where
  follows l := by
    rw [hhead]
    refine (h.follows l).congr fun id _ => ?_
    unfold link
    rw [hwatched]
  watching l id hw := by
    obtain ⟨w, hid, hi⟩ := hw
    rw [hwatched] at hid
    exact h.watching l id ⟨w, hid, hi⟩
  distinct id w hw := by
    rw [hwatched] at hw
    exact h.distinct id w hw

theorem alloc_none (h : s.Represents lists) : (s.alloc none).Represents lists :=
  h.congr rfl watched_alloc_none

/-- A clause that is allocated is no node of any list yet. -/
theorem length_notMem (h : s.Represents lists) (l : Literal) : s.watches.length ∉ lists l := by
  intro hmem
  obtain ⟨w, hw, -⟩ := h.mem_iff.mp hmem
  rw [watched_length] at hw
  cases hw

/-- A new clause is pushed onto the lists of the two literals it watches. -/
theorem alloc_some (h : s.Represents lists) {a b : Literal} (hne : a ≠ b) :
    (s.alloc (some (a, b))).Represents (started lists (a, b) s.watches.length) := by
  obtain ⟨hnew, hhead⟩ := WatchState.alloc_some (s := s) hne
  have hold : ∀ l, ∀ id ∈ lists l, (s.alloc (some (a, b))).link l id = s.link l id := by
    intro l id hid
    have hid' : id ≠ s.watches.length := by
      intro heq
      subst heq
      exact h.length_notMem l hid
    unfold link
    rw [watched_alloc_of_ne hid']
  refine ⟨?_, ?_, ?_⟩
  · intro l
    rw [hhead]
    unfold started
    by_cases hl : l = a ∨ l = b
    · rw [if_pos hl, if_pos hl]
      refine (h.follows l).push ?_ (hold l)
      by_cases ha : l = a
      · subst ha
        exact link_of (i := 0) hnew (by simp [WatchedLiterals.watchIndex])
      · obtain rfl : l = b := hl.resolve_left ha
        exact link_of (i := 1) hnew (by simp [WatchedLiterals.watchIndex, hne])
    · rw [if_neg hl, if_neg hl]
      exact (h.follows l).congr (hold l)
  · rintro l id ⟨w, hw, i, hi⟩
    unfold started
    by_cases hid : id = s.watches.length
    · subst hid
      rw [hnew] at hw
      cases hw
      have hl : l = a ∨ l = b := by
        match i with
        | 0 => exact .inl hi.symm
        | 1 => exact .inr hi.symm
      rw [if_pos hl]
      exact List.mem_cons_self
    · rw [watched_alloc_of_ne hid] at hw
      have hmem := h.watching l id ⟨w, hw, i, hi⟩
      split
      · exact List.mem_cons_of_mem _ hmem
      · exact hmem
  · intro id w hw
    by_cases hid : id = s.watches.length
    · subst hid
      rw [hnew] at hw
      cases hw
      exact hne
    · rw [watched_alloc_of_ne hid] at hw
      exact h.distinct id w hw

end Represents

/-! ## Moving a watch -/

/-- The lists after a clause was moved from the list of one literal to the front of another one. -/
def moved (lists : Literal → List ClauseId) (old new : Literal) (id : ClauseId) :
    Literal → List ClauseId :=
  fun l => if l = new then id :: lists l else if l = old then (lists l).erase id else lists l

/-- The cursor stands in the list of its literal, behind `before` and in front of `after`. -/
structure CursorAt (s : WatchState) (lists : Literal → List ClauseId) (c : WatchMapCursor)
    (before after : List ClauseId) : Prop where
  split : lists c.literal = before ++ c.current.clauseId :: after
  current : s.node c.literal c.current.clauseId = some c.current
  previous : c.previous.map WatchNode.clauseId = before.getLast?
  previousNode : ∀ p, c.previous = some p → s.node c.literal p.clauseId = some p

variable {lists : Literal → List ClauseId} {before after : List ClauseId}

theorem Represents.node_isSome (h : s.Represents lists) (hid : id ∈ lists l) :
    ∃ n, s.node l id = some n ∧ n.clauseId = id := by
  obtain ⟨w, i, -, -, hn⟩ := h.node_of_mem hid
  exact ⟨_, hn, rfl⟩

/-- A cursor is `none` for an empty list and stands at the head otherwise. -/
theorem Represents.cursor (h : s.Represents lists) (l : Literal) :
    ∃ r, s.cursor l = some r ∧
      match lists l with
      | [] => r = none
      | id :: after => ∃ c, r = some c ∧ c.literal = l ∧ c.current.clauseId = id ∧
          s.CursorAt lists c [] after := by
  have hhead : s.watchMap.map.get l = (lists l).head? := (h.follows l).head_eq
  unfold WatchState.cursor
  cases hlist : lists l with
  | nil =>
    rw [hlist] at hhead
    rw [hhead]
    exact ⟨none, rfl, rfl⟩
  | cons id rest =>
    rw [hlist] at hhead
    rw [hhead]
    have hid : id ∈ lists l := by
      rw [hlist]
      exact List.mem_cons_self
    obtain ⟨n, hn, rfl⟩ := h.node_isSome hid
    refine ⟨some ⟨l, none, n⟩, ?_, _, rfl, rfl, rfl, hlist, hn, rfl, ?_⟩
    · show (s.node l n.clauseId).map _ = _
      rw [hn]
      rfl
    · intro p hp
      cases hp

/-- The node after the current one is the next clause of the list. -/
theorem Represents.nextNode (h : s.Represents lists) (hc : s.CursorAt lists c before after) :
    ∃ r, s.nextNode c = some r ∧ r.map WatchNode.clauseId = after.head? ∧
      ∀ n, r = some n → s.node c.literal n.clauseId = some n := by
  have hfollows := h.follows c.literal
  rw [hc.split] at hfollows
  obtain ⟨hlink, -⟩ := hfollows.drop
  obtain ⟨w, i, hw, hi, hn⟩ := link_eq_some hlink
  obtain ⟨-, w', hw', hi'⟩ := node_eq_some hc.current
  rw [hw] at hw'
  cases hw'
  rw [hi] at hi'
  cases hi'
  unfold WatchState.nextNode
  simp only [hw, hn]
  cases after with
  | nil =>
    refine ⟨none, rfl, rfl, ?_⟩
    intro n hn
    cases hn
  | cons id rest =>
    have hid : id ∈ lists c.literal := by
      rw [hc.split]
      simp
    obtain ⟨n, hnode, rfl⟩ := h.node_isSome hid
    refine ⟨some n, ?_, rfl, ?_⟩
    · show (s.node c.literal n.clauseId).map some = _
      rw [hnode]
      rfl
    · intro n' hn'
      cases hn'
      exact hnode

/-- Stepping to the next node leaves the lists alone and passes one clause. -/
theorem Represents.next (h : s.Represents lists) (hc : s.CursorAt lists c before after) :
    ∃ r, s.next c = some r ∧
      match after with
      | [] => r = none
      | id :: rest => ∃ c', r = some c' ∧ c'.literal = c.literal ∧ c'.current.clauseId = id ∧
          s.CursorAt lists c' (before ++ [c.current.clauseId]) rest := by
  obtain ⟨r, hr, hid, hnode⟩ := h.nextNode hc
  unfold WatchState.next
  rw [hr]
  cases after with
  | nil =>
    cases r with
    | none => exact ⟨none, rfl, rfl⟩
    | some n => cases hid
  | cons id rest =>
    cases r with
    | none => cases hid
    | some n =>
      obtain rfl : n.clauseId = id := Option.some.inj hid
      refine ⟨_, rfl, _, rfl, rfl, rfl, ?_, hnode n rfl, ?_, ?_⟩
      · rw [hc.split]
        simp
      · simp
      · intro p hp
        cases hp
        exact hc.current

/-- The clauses watch the same literals; links and heads may differ. -/
def SameLiterals (s s' : WatchState) : Prop :=
  ∀ id, (s'.watched id).map (·.watchedLiterals) = (s.watched id).map (·.watchedLiterals)

theorem SameLiterals.exists (h : SameLiterals s s') (hw : s.watched id = some w) :
    ∃ w', s'.watched id = some w' ∧ w'.watchedLiterals = w.watchedLiterals := by
  have hmap := h id
  rw [hw, Option.map_some, Option.map_eq_some_iff] at hmap
  exact hmap

theorem SameLiterals.setWatched {w' : WatchedLiterals} (hw : s.watched id = some w)
    (hlits : w'.watchedLiterals = w.watchedLiterals) : SameLiterals s (s.setWatched id w') := by
  intro id'
  rw [watched_setWatched (watched_lt hw)]
  split
  · rename_i heq
    rw [heq, hw, Option.map_some, Option.map_some, hlits]
  · rfl

theorem watchIndex_congr {w' : WatchedLiterals} (h : w'.watchedLiterals = w.watchedLiterals) :
    w'.watchIndex l = w.watchIndex l := by
  unfold WatchedLiterals.watchIndex
  rw [h]

/-- Changing one link of a clause changes its link in the list of that literal alone. -/
theorem link_setLink {i : Fin 2} (hw : s.watched id = some w) (hi : w.watchIndex literal = some i)
    (n : Option ClauseId) (l : Literal) (id' : ClauseId) :
    (s.setWatched id { w with nextWatches := Function.update w.nextWatches i n }).link l id'
      = if id' = id ∧ l = literal then some n else s.link l id' := by
  by_cases hid : id' = id
  · subst hid
    have hnew : (s.setWatched id' { w with nextWatches := Function.update w.nextWatches i n }).watched id'
        = some { w with nextWatches := Function.update w.nextWatches i n } := by
      rw [watched_setWatched (watched_lt hw), if_pos rfl]
    by_cases hl : l = literal
    · subst hl
      rw [if_pos ⟨rfl, rfl⟩, link_of hnew hi]
      simp
    · rw [if_neg fun hand => hl hand.2]
      unfold link
      rw [hnew, hw, Option.bind_some, Option.bind_some]
      show (w.watchIndex l).map _ = _
      cases hj : w.watchIndex l with
      | none => rfl
      | some j =>
        have hne : j ≠ i := by
          intro heq
          subst heq
          exact hl ((watchIndex_eq_some hj).symm.trans (watchIndex_eq_some hi))
        simp [hne]
  · rw [if_neg fun hand => hid hand.1]
    unfold link
    rw [watched_setWatched (watched_lt hw), if_neg hid]

/-- Without a previous node the map is made to point to the next one, or to nothing. -/
theorem unlink_head (hp : c.previous = none) (r : Option WatchNode) :
    ∃ map, s.unlink c r = some { s with watchMap := ⟨map⟩ } ∧
      ∀ l, map.get l = if l = c.literal then r.map WatchNode.clauseId else s.head l := by
  unfold WatchState.unlink
  rw [hp]
  cases r with
  | some n => exact ⟨_, rfl, fun l => Mapping.get_insert _ _ _ l⟩
  | none => exact ⟨_, rfl, fun l => Mapping.get_unset _ _ l⟩

/-- The current node is taken out of the list of the cursor's literal; no other list changes. -/
theorem Represents.unlink (h : s.Represents lists) (hc : s.CursorAt lists c before after)
    {r : Option WatchNode} (hid : r.map WatchNode.clauseId = after.head?) :
    ∃ s₁, s.unlink c r = some s₁ ∧ SameLiterals s s₁ ∧
      ∀ l, Follows (s₁.link l) (s₁.head l) (if l = c.literal then before ++ after else lists l) := by
  have hfollows := h.follows c.literal
  have hnodup := hfollows.nodup
  rw [hc.split] at hfollows hnodup
  cases hp : c.previous with
  | some p =>
    have hprevious := hc.previous
    rw [hp] at hprevious
    obtain ⟨front, rfl⟩ := List.getLast?_eq_some_iff.mp hprevious.symm
    obtain ⟨-, w, hw, hi⟩ := node_eq_some (hc.previousNode p hp)
    rw [List.append_assoc] at hfollows hnodup
    have hne : ∀ id ∈ front ++ after, id ≠ p.clauseId := by
      rintro id hid rfl
      simp only [List.nodup_append, List.singleton_append, List.nodup_cons, List.mem_cons] at hnodup
      rcases List.mem_append.mp hid with hid | hid
      · exact hnodup.2.2 _ hid _ (.inl rfl) rfl
      · exact hnodup.2.1.1 (.inr hid)
    refine ⟨s.setWatched p.clauseId { w with
      nextWatches := Function.update w.nextWatches p.watchIndex after.head? }, ?_,
      .setWatched hw rfl, ?_⟩
    · unfold WatchState.unlink
      rw [hp]
      show (s.watched p.clauseId).map _ = _
      rw [hw, hid]
      rfl
    · intro l
      by_cases hl : l = c.literal
      · subst hl
        rw [if_pos rfl, List.append_assoc]
        refine hfollows.unlink ?_ ?_ ?_
        · rw [link_setLink hw hi, if_pos ⟨rfl, rfl⟩]
        · intro id hid
          rw [link_setLink hw hi, if_neg fun hand => hne id (List.mem_append_left _ hid) hand.1]
        · intro id hid
          rw [link_setLink hw hi, if_neg fun hand => hne id (List.mem_append_right _ hid) hand.1]
      · rw [if_neg hl]
        refine (h.follows l).congr fun id _ => ?_
        rw [link_setLink hw hi, if_neg fun hand => hl hand.2]
  | none =>
    have hprevious := hc.previous
    rw [hp] at hprevious
    obtain rfl : before = [] := List.getLast?_eq_none_iff.mp hprevious.symm
    have hafter := hfollows.unlinkHead fun id _ => rfl
    obtain ⟨map, hunlink, hget⟩ := unlink_head (s := s) hp r
    refine ⟨_, hunlink, fun _ => rfl, ?_⟩
    intro l
    have hhead : ({ s with watchMap := ⟨map⟩ } : WatchState).head l
        = if l = c.literal then after.head? else s.head l := by
      rw [← hid]
      exact hget l
    rw [hhead]
    by_cases hl : l = c.literal
    · subst hl
      rw [if_pos rfl, if_pos rfl]
      exact hafter
    · rw [if_neg hl, if_neg hl]
      exact h.follows l

/-- A watch that is moved to a new literal: its index is the same, and the link is the one stored. -/
theorem watchIndex_moved {i : Fin 2} (hother : w.watchedLiterals (1 - i) ≠ newWatch) (n : Option ClauseId) :
    (WatchedLiterals.mk (Function.update w.watchedLiterals i newWatch)
        (Function.update w.nextWatches i n)).watchIndex newWatch = some i := by
  unfold WatchedLiterals.watchIndex
  match i with
  | 0 => simp
  | 1 =>
    have hzero : w.watchedLiterals 0 ≠ newWatch := hother
    simp [hzero]

/-- In the list of any other literal the moved clause keeps its index. -/
theorem watchIndex_moved_of_ne {i : Fin 2} (hi : w.watchIndex literal = some i) (hl : l ≠ literal)
    (hnew : l ≠ newWatch) (n : Option ClauseId) :
    (WatchedLiterals.mk (Function.update w.watchedLiterals i newWatch)
        (Function.update w.nextWatches i n)).watchIndex l = w.watchIndex l := by
  have hold := watchIndex_eq_some hi
  unfold WatchedLiterals.watchIndex
  match i with
  | 0 => simp [hold, Ne.symm hnew, Ne.symm hl]
  | 1 => simp [hold, Ne.symm hnew, Ne.symm hl]

theorem eq_or_eq_sub (i j : Fin 2) : j = i ∨ j = 1 - i := by
  revert i j
  decide

theorem sub_ne (i : Fin 2) : 1 - i ≠ i := by
  revert i
  decide

/-- What pushing the unlinked node onto the list of a new literal does: it is the head there, and its
    links in other lists, and those of other clauses, stay. -/
structure Relinked (s s' : WatchState) (n : WatchNode) (w : WatchedLiterals)
    (literal newWatch : Literal) : Prop where
  others : ∀ id, id ≠ n.clauseId → s'.watched id = s.watched id
  current : ∃ w', s'.watched n.clauseId = some w' ∧
    w'.watchedLiterals = Function.update w.watchedLiterals n.watchIndex newWatch
  head : ∀ l, s'.head l = if l = newWatch then some n.clauseId else s.head l
  link : ∀ l, l ≠ literal → l ≠ newWatch → s'.link l n.clauseId = s.link l n.clauseId
  linkNew : s'.link newWatch n.clauseId = some (s.head newWatch)

theorem relink_spec {n : WatchNode} (hw : s.watched n.clauseId = some w)
    (hi : w.watchIndex literal = some n.watchIndex)
    (hother : w.watchedLiterals (1 - n.watchIndex) ≠ newWatch) :
    ∃ s', s.relink n newWatch = some s' ∧ Relinked s s' n w literal newWatch := by
  obtain ⟨t, ht⟩ : ∃ t : WatchState,
      t = { s with watchMap := ⟨(s.watchMap.map.insert newWatch n.clauseId).2⟩ } := ⟨_, rfl⟩
  have hwatched : ∀ id, t.watched id = s.watched id := by
    intro id
    rw [ht]
    rfl
  have hset := watched_setWatched (watched_lt ((hwatched n.clauseId).trans hw))
    ⟨Function.update w.watchedLiterals n.watchIndex newWatch,
      Function.update w.nextWatches n.watchIndex (s.head newWatch)⟩
  have hrelink : s.relink n newWatch = some (t.setWatched n.clauseId
      ⟨Function.update w.watchedLiterals n.watchIndex newWatch,
        Function.update w.nextWatches n.watchIndex (s.head newWatch)⟩) := by
    unfold relink WatchState.head
    rw [hw, ← Mapping.insert_fst s.watchMap.map newWatch n.clauseId, ht]
    rfl
  refine ⟨_, hrelink, ?_,
    ⟨⟨Function.update w.watchedLiterals n.watchIndex newWatch,
      Function.update w.nextWatches n.watchIndex (s.head newWatch)⟩, ?_, rfl⟩, ?_, ?_, ?_⟩
  · intro id hid
    rw [hset, if_neg hid, hwatched]
  · rw [hset, if_pos rfl]
  · intro l
    rw [head_setWatched, ht]
    exact Mapping.get_insert _ _ _ l
  · intro l hl hnew
    unfold WatchState.link
    rw [hset, if_pos rfl, hw, Option.bind_some, Option.bind_some,
      watchIndex_moved_of_ne hi hl hnew]
    cases hj : w.watchIndex l with
    | none => rfl
    | some j =>
      have hne : j ≠ n.watchIndex := by
        intro heq
        rw [heq] at hj
        exact hl ((watchIndex_eq_some hj).symm.trans (watchIndex_eq_some hi))
      simp [hne]
  · unfold WatchState.link
    rw [hset, if_pos rfl, Option.bind_some, watchIndex_moved hother, Option.map_some]
    show some (Function.update w.nextWatches n.watchIndex (s.head newWatch) n.watchIndex) = _
    rw [Function.update_self]

/-- Links of other clauses, and the moved clause's links in a third list, are kept. -/
theorem Relinked.link_eq {n : WatchNode} (h : Relinked s s' n w literal newWatch)
    (hcases : id = n.clauseId → l ≠ literal ∧ l ≠ newWatch) : s'.link l id = s.link l id := by
  by_cases heq : id = n.clauseId
  · obtain ⟨hl, hnew⟩ := hcases heq
    rw [heq]
    exact h.link l hl hnew
  · unfold WatchState.link
    rw [h.others id heq]

/-- The current clause occurs once in its list. -/
theorem CursorAt.notMem (hc : s.CursorAt lists c before after) (h : s.Represents lists) :
    c.current.clauseId ∉ before ++ after := by
  have hnodup := (h.follows c.literal).nodup
  rw [hc.split] at hnodup
  exact (List.nodup_cons.mp (List.perm_middle.nodup_iff.mp hnodup)).1

theorem CursorAt.erase_eq (hc : s.CursorAt lists c before after) (h : s.Represents lists) :
    (lists c.literal).erase c.current.clauseId = before ++ after := by
  have hnot : c.current.clauseId ∉ before := fun hmem =>
    hc.notMem h (List.mem_append_left _ hmem)
  rw [hc.split, List.erase_append_right _ hnot, List.erase_cons_head]

/-- A clause is not in the list of a literal that neither of its indices watches. -/
theorem Represents.notMem_of_ne (h : s.Represents lists) {i : Fin 2} (hw : s.watched id = some w)
    (hi : w.watchedLiterals i ≠ l) (hother : w.watchedLiterals (1 - i) ≠ l) : id ∉ lists l := by
  intro hmem
  obtain ⟨w', hw', j, hj⟩ := h.mem_iff.mp hmem
  rw [hw] at hw'
  cases hw'
  rcases eq_or_eq_sub i j with rfl | rfl
  · exact hi hj
  · exact hother hj

/-- Membership in the lists after a move. -/
theorem mem_moved {old : Literal} {moving : ClauseId} (hid : id ∈ lists l)
    (hcases : id = moving → l ≠ old) : id ∈ moved lists old newWatch moving l := by
  unfold moved
  by_cases hnew : l = newWatch
  · rw [if_pos hnew]
    exact List.mem_cons_of_mem _ hid
  · rw [if_neg hnew]
    by_cases hold : l = old
    · rw [if_pos hold]
      exact (List.mem_erase_of_ne fun heq => hcases heq hold).mpr hid
    · rw [if_neg hold]
      exact hid

theorem SameLiterals.symm (h : SameLiterals s s') : SameLiterals s' s := fun id => (h id).symm

/-- After unlinking and relinking, the links hold the moved lists. -/
theorem Represents.relinked {s₁ : WatchState} {w₁ : WatchedLiterals} (h : s.Represents lists)
    (hc : s.CursorAt lists c before after) (hne : newWatch ≠ c.literal) (hsame : SameLiterals s s₁)
    (hlists : ∀ l, Follows (s₁.link l) (s₁.head l) (if l = c.literal then before ++ after else lists l))
    (hw : s.watched c.current.clauseId = some w)
    (hi : w.watchIndex c.literal = some c.current.watchIndex)
    (hother : w.watchedLiterals (1 - c.current.watchIndex) ≠ newWatch)
    (hlits : w₁.watchedLiterals = w.watchedLiterals)
    (hr : Relinked s₁ s' c.current w₁ c.literal newWatch) :
    s'.Represents (moved lists c.literal newWatch c.current.clauseId) := by
  obtain ⟨wₙ, hcurrent, hnewLits⟩ := hr.current
  rw [hlits] at hnewLits
  have hold := watchIndex_eq_some hi
  have hcurrentNe : w.watchedLiterals (1 - c.current.watchIndex) ≠ c.literal := by
    have hdistinct := h.distinct _ w hw
    generalize c.current.watchIndex = i at hold ⊢
    rw [← hold]
    match i with
    | 0 => exact hdistinct.symm
    | 1 => exact hdistinct
  refine ⟨?_, ?_, ?_⟩
  · intro l
    have hl₁ := hlists l
    rw [hr.head]
    unfold moved
    by_cases hnew : l = newWatch
    · subst hnew
      rw [if_neg hne] at hl₁
      rw [if_pos rfl, if_pos rfl]
      refine hl₁.push hr.linkNew fun id hid => hr.link_eq fun heq => ?_
      rw [heq] at hid
      have hnewNe : w.watchedLiterals c.current.watchIndex ≠ l := by
        rw [hold]
        exact Ne.symm hne
      exact absurd hid (h.notMem_of_ne hw hnewNe hother)
    · rw [if_neg hnew, if_neg hnew]
      by_cases hl : l = c.literal
      · subst hl
        rw [if_pos rfl] at hl₁
        rw [if_pos rfl, hc.erase_eq h]
        refine hl₁.congr fun id hid => hr.link_eq fun heq => ?_
        rw [heq] at hid
        exact absurd hid (hc.notMem h)
      · rw [if_neg hl] at hl₁
        rw [if_neg hl]
        exact hl₁.congr fun id _ => hr.link_eq fun _ => ⟨hl, hnew⟩
  · rintro l id ⟨w', hw', j, hj⟩
    by_cases heq : id = c.current.clauseId
    · subst heq
      rw [hcurrent] at hw'
      cases hw'
      rw [hnewLits] at hj
      rcases eq_or_eq_sub c.current.watchIndex j with rfl | rfl
      · rw [Function.update_self] at hj
        unfold moved
        rw [if_pos hj.symm]
        exact List.mem_cons_self
      · rw [Function.update_of_ne (sub_ne c.current.watchIndex)] at hj
        refine mem_moved (h.watching l _ ⟨w, hw, _, hj⟩) fun _ => ?_
        rw [← hj]
        exact hcurrentNe
    · rw [hr.others id heq] at hw'
      obtain ⟨w'', hw'', hlits''⟩ := hsame.symm.exists hw'
      refine mem_moved (h.watching l id ⟨w'', hw'', j, ?_⟩) fun h => absurd h heq
      rw [hlits'']
      exact hj
  · intro id w' hw'
    by_cases heq : id = c.current.clauseId
    · subst heq
      rw [hcurrent] at hw'
      cases hw'
      rw [hnewLits]
      generalize c.current.watchIndex = i at hother ⊢
      match i with
      | 0 => simpa using hother.symm
      | 1 => simpa using hother
    · rw [hr.others id heq] at hw'
      obtain ⟨w'', hw'', hlits''⟩ := hsame.symm.exists hw'
      rw [← hlits'']
      exact h.distinct id w'' hw''

/-- **Moving a watch** moves the clause from the list of the traversed literal to the front of the list
    of the new one; the cursor goes on with the clause after it. -/
theorem Represents.update (h : s.Represents lists) (hc : s.CursorAt lists c before after)
    (hne : newWatch ≠ c.literal) (hother : s.otherWatch c ≠ some newWatch) :
    ∃ s' r, s.update c newWatch = some (s', r) ∧
      s'.Represents (moved lists c.literal newWatch c.current.clauseId) ∧
      match after with
      | [] => r = none
      | id :: rest => ∃ c', r = some c' ∧ c'.literal = c.literal ∧ c'.current.clauseId = id ∧
          s'.CursorAt (moved lists c.literal newWatch c.current.clauseId) c' before rest := by
  obtain ⟨r, hr, hid, hnode⟩ := h.nextNode hc
  obtain ⟨s₁, hunlink, hsame, hlists⟩ := h.unlink hc hid
  obtain ⟨-, w, hw, hi⟩ := node_eq_some hc.current
  obtain ⟨w₁, hw₁, hlits⟩ := hsame.exists hw
  have hi₁ : w₁.watchIndex c.literal = some c.current.watchIndex := by
    rw [watchIndex_congr hlits]
    exact hi
  have hotherNe : w.watchedLiterals (1 - c.current.watchIndex) ≠ newWatch := by
    intro heq
    apply hother
    unfold otherWatch
    rw [hw, Option.map_some, heq]
  have hotherNe₁ : w₁.watchedLiterals (1 - c.current.watchIndex) ≠ newWatch := by
    rw [hlits]
    exact hotherNe
  obtain ⟨s', hrelink, hrelinked⟩ := relink_spec hw₁ hi₁ hotherNe₁
  have hupdate : s.update c newWatch
      = some (s', r.map fun node => { c with current := node }) := by
    unfold WatchState.update
    rw [if_neg hne, hr]
    show (s.unlink c r).bind _ = _
    rw [hunlink]
    show (s₁.relink c.current newWatch).bind _ = _
    rw [hrelink]
    rfl
  refine ⟨s', _, hupdate, h.relinked hc hne hsame hlists hw hi hotherNe hlits hrelinked, ?_⟩
  have hsplit : moved lists c.literal newWatch c.current.clauseId c.literal = before ++ after := by
    unfold moved
    rw [if_neg (Ne.symm hne), if_pos rfl, hc.erase_eq h]
  -- a node of the old list other than the current one is the same node as before
  have hnodeKept : ∀ n : WatchNode, n.clauseId ∈ before ++ after →
      s.node c.literal n.clauseId = some n → s'.node c.literal n.clauseId = some n := by
    intro n hmem hn
    have heq : n.clauseId ≠ c.current.clauseId := fun heq => hc.notMem h (heq ▸ hmem)
    obtain ⟨-, w', hw', hi'⟩ := node_eq_some hn
    obtain ⟨w'', hw'', hlits''⟩ := hsame.exists hw'
    rw [← hrelinked.others _ heq] at hw''
    rw [← watchIndex_congr hlits''] at hi'
    exact node_of hw'' hi'
  cases after with
  | nil =>
    cases r with
    | none => rfl
    | some n => cases hid
  | cons id rest =>
    cases r with
    | none => cases hid
    | some n =>
      obtain rfl : n.clauseId = id := Option.some.inj hid
      refine ⟨_, rfl, rfl, rfl, hsplit, ?_, hc.previous, ?_⟩
      · exact hnodeKept n (by simp) (hnode n rfl)
      · intro p hp
        have hlast := hc.previous
        rw [hp, Option.map_some] at hlast
        exact hnodeKept p (List.mem_append_left _ (List.mem_of_getLast? hlast.symm))
          (hc.previousNode p hp)

/-! ## The lists of the solver model -/

/-- Linking a new clause is what the solver's lists record for it. -/
theorem Represents.addClause {N S F : Type} {t : SolverState N S F}
    (h : s.Represents fun l => t.watches.getD l []) (hlength : s.watches.length = t.clauses.length)
    {watched : Option Watches} (hne : ∀ a b, watched = some (a, b) → a ≠ b) (kind : Clause N) :
    (s.alloc watched).Represents fun l => (t.addClause watched kind).2.watches.getD l [] := by
  cases watched with
  | none => exact h.alloc_none
  | some watched =>
    obtain ⟨a, b⟩ := watched
    have hab := hne a b rfl
    have hlists : (fun l => (t.addClause (some (a, b)) kind).2.watches.getD l [])
        = started (fun l => t.watches.getD l []) (a, b) s.watches.length := by
      funext l
      rw [hlength]
      show (SolverState.startWatching t.watches (a, b) t.clauses.length).getD l [] = _
      unfold SolverState.startWatching started
      simp only [if_neg (Ne.symm hab)]
      rw [IndexMap.getD_insert, IndexMap.getD_insert, IndexMap.getD_insert]
      by_cases hb : b = l
      · subst hb
        simp [hab]
      · by_cases ha : a = l
        · simp [ha, hb]
        · simp [ha, hb, Ne.symm ha, Ne.symm hb]
    rw [hlists]
    exact h.alloc_some hab

/-- Moving a watch along the links is what the solver's `updateWatch` does to its lists. -/
theorem Represents.updateWatch {N S F : Type} {t : SolverState N S F}
    (h : s.Represents fun l => t.watches.getD l [])
    (hc : s.CursorAt (fun l => t.watches.getD l []) c before after) (hne : newWatch ≠ c.literal)
    (hother : s.otherWatch c ≠ some newWatch) (watched : Watches) (watchIndex : Nat) :
    ∃ s' r, s.update c newWatch = some (s', r) ∧
      s'.Represents fun l =>
        (t.updateWatch c.current.clauseId watched watchIndex c.literal newWatch).watches.getD l [] := by
  obtain ⟨s', r, hupdate, hrep, -⟩ := h.update hc hne hother
  refine ⟨s', r, hupdate, ?_⟩
  have hlists : (fun l =>
      (t.updateWatch c.current.clauseId watched watchIndex c.literal newWatch).watches.getD l [])
      = moved (fun l => t.watches.getD l []) c.literal newWatch c.current.clauseId := by
    funext l
    unfold SolverState.updateWatch moved
    simp only [IndexMap.getD_insert]
    by_cases hnew : newWatch = l
    · subst hnew
      simp [Ne.symm hne]
    · by_cases hold : c.literal = l
      · simp [hnew, Ne.symm hnew, hold]
      · simp [hnew, Ne.symm hnew, hold, Ne.symm hold]
  rw [hlists]
  exact hrep

/-! ## Runs -/

/-- The states reached by allocating clauses and by cursors that step or move watches; the second
    component is the cursor in use, and while there is one no clause is allocated. -/
inductive Reachable : WatchState → Option WatchMapCursor → Prop
  | init : Reachable {} none
  | unwatched {s : WatchState} (h : Reachable s none) : Reachable (s.alloc none) none
  | startWatching {s : WatchState} {a b : Literal} (h : Reachable s none) (hne : a ≠ b) :
      Reachable (s.alloc (some (a, b))) none
  | cursor {s : WatchState} {r : Option WatchMapCursor} (l : Literal) (h : Reachable s none)
      (hr : s.cursor l = some r) : Reachable s r
  | next {s : WatchState} {c : WatchMapCursor} {r : Option WatchMapCursor} (h : Reachable s (some c))
      (hr : s.next c = some r) : Reachable s r
  | update {s s' : WatchState} {c : WatchMapCursor} {r : Option WatchMapCursor} {newWatch : Literal}
      (h : Reachable s (some c)) (hne : newWatch ≠ c.literal)
      (hother : s.otherWatch c ≠ some newWatch) (hr : s.update c newWatch = some (s', r)) :
      Reachable s' r
  | drop {s : WatchState} {c : WatchMapCursor} (h : Reachable s (some c)) : Reachable s none

/-- One traversal from a cursor: the clauses it has dealt with, and where it stands. -/
inductive Traverses (s : WatchState) (r : Option WatchMapCursor) :
    List ClauseId → WatchState → Option WatchMapCursor → Prop
  | start : Traverses s r [] s r
  | next {visited : List ClauseId} {s' : WatchState} {c : WatchMapCursor} {r' : Option WatchMapCursor}
      (h : Traverses s r visited s' (some c)) (hr : s'.next c = some r') :
      Traverses s r (visited ++ [c.current.clauseId]) s' r'
  | update {visited : List ClauseId} {s' s'' : WatchState} {c : WatchMapCursor}
      {r' : Option WatchMapCursor} {newWatch : Literal} (h : Traverses s r visited s' (some c))
      (hne : newWatch ≠ c.literal) (hother : s'.otherWatch c ≠ some newWatch)
      (hr : s'.update c newWatch = some (s'', r')) :
      Traverses s r (visited ++ [c.current.clauseId]) s'' r'

/-- The invariant of a run: the links hold some lists, and a cursor stands in one of them. -/
def Exact (s : WatchState) (r : Option WatchMapCursor) : Prop :=
  ∃ lists, s.Represents lists ∧ ∀ c, r = some c → ∃ before after, s.CursorAt lists c before after

/-- After a step of a cursor, it stands in front of what is left of its list, or is gone if nothing is. -/
def Remaining (s : WatchState) (lists : Literal → List ClauseId) (r : Option WatchMapCursor)
    (rest : List ClauseId) : Prop :=
  match rest with
  | [] => r = none
  | id :: after => ∃ c before, r = some c ∧ c.current.clauseId = id ∧ s.CursorAt lists c before after

theorem Remaining.clauseId {r : Option WatchMapCursor} {rest : List ClauseId}
    (h : s.Remaining lists r rest) : r.map (·.current.clauseId) = rest.head? := by
  cases rest with
  | nil =>
    obtain rfl : r = none := h
    rfl
  | cons id after =>
    obtain ⟨c, before, rfl, rfl, -⟩ := h
    rfl

theorem Remaining.exact {r : Option WatchMapCursor} {rest : List ClauseId}
    (h : s.Remaining lists r rest) (hrep : s.Represents lists) : s.Exact r := by
  refine ⟨lists, hrep, ?_⟩
  rintro c rfl
  cases rest with
  | nil => cases h
  | cons id after =>
    obtain ⟨c', before, heq, -, hc⟩ := h
    cases heq
    exact ⟨before, after, hc⟩

theorem Represents.cursor_remaining (h : s.Represents lists) (l : Literal) :
    ∃ r, s.cursor l = some r ∧ s.Remaining lists r (lists l) := by
  obtain ⟨r, hr, hcases⟩ := h.cursor l
  refine ⟨r, hr, ?_⟩
  cases hl : lists l with
  | nil =>
    rw [hl] at hcases
    exact hcases
  | cons id after =>
    rw [hl] at hcases
    obtain ⟨c, rfl, -, hid, hc⟩ := hcases
    exact ⟨c, [], rfl, hid, hc⟩

theorem Represents.next_remaining (h : s.Represents lists) (hc : s.CursorAt lists c before after) :
    ∃ r, s.next c = some r ∧ s.Remaining lists r after := by
  obtain ⟨r, hr, hcases⟩ := h.next hc
  refine ⟨r, hr, ?_⟩
  cases after with
  | nil => exact hcases
  | cons id rest =>
    obtain ⟨c', rfl, -, hid, hc'⟩ := hcases
    exact ⟨c', _, rfl, hid, hc'⟩

theorem Represents.update_remaining (h : s.Represents lists) (hc : s.CursorAt lists c before after)
    (hne : newWatch ≠ c.literal) (hother : s.otherWatch c ≠ some newWatch) :
    ∃ s' r lists', s.update c newWatch = some (s', r) ∧ s'.Represents lists' ∧
      s'.Remaining lists' r after := by
  obtain ⟨s', r, hr, hrep, hcases⟩ := h.update hc hne hother
  refine ⟨s', r, _, hr, hrep, ?_⟩
  cases after with
  | nil => exact hcases
  | cons id rest =>
    obtain ⟨c', rfl, -, hid, hc'⟩ := hcases
    exact ⟨c', _, rfl, hid, hc'⟩

theorem Reachable.invariant {r : Option WatchMapCursor} (h : Reachable s r) : s.Exact r := by
  induction h with
  | init => exact ⟨_, .empty, fun c hc => by cases hc⟩
  | unwatched _ ih =>
    obtain ⟨lists, hrep, -⟩ := ih
    exact ⟨lists, hrep.alloc_none, fun c hc => by cases hc⟩
  | startWatching _ hne ih =>
    obtain ⟨lists, hrep, -⟩ := ih
    exact ⟨_, hrep.alloc_some hne, fun c hc => by cases hc⟩
  | cursor l _ hr ih =>
    obtain ⟨lists, hrep, -⟩ := ih
    obtain ⟨r', hr', hremaining⟩ := hrep.cursor_remaining l
    rw [hr] at hr'
    cases hr'
    exact hremaining.exact hrep
  | next _ hr ih =>
    obtain ⟨lists, hrep, hcursor⟩ := ih
    obtain ⟨before, after, hc⟩ := hcursor _ rfl
    obtain ⟨r', hr', hremaining⟩ := hrep.next_remaining hc
    rw [hr] at hr'
    cases hr'
    exact hremaining.exact hrep
  | update _ hne hother hr ih =>
    obtain ⟨lists, hrep, hcursor⟩ := ih
    obtain ⟨before, after, hc⟩ := hcursor _ rfl
    obtain ⟨s', r', lists', hr', hrep', hremaining⟩ := hrep.update_remaining hc hne hother
    rw [hr] at hr'
    cases hr'
    exact hremaining.exact hrep'
  | drop _ ih =>
    obtain ⟨lists, hrep, -⟩ := ih
    exact ⟨lists, hrep, fun c hc => by cases hc⟩

/-- The clauses a traversal has dealt with and those it has still to visit are the list at its start. -/
theorem Traverses.remaining {r r' : Option WatchMapCursor} {visited start : List ClauseId}
    (h : Traverses s r visited s' r') (hrep : s.Represents lists) (hstart : s.Remaining lists r start) :
    ∃ lists' rest, s'.Represents lists' ∧ start = visited ++ rest ∧ s'.Remaining lists' r' rest := by
  induction h with
  | start => exact ⟨lists, start, hrep, rfl, hstart⟩
  | next _ hr ih =>
    obtain ⟨lists', rest, hrep', hsplit, hremaining⟩ := ih
    cases rest with
    | nil => cases hremaining
    | cons id after =>
      obtain ⟨c, before, heq, rfl, hc⟩ := hremaining
      cases heq
      obtain ⟨r'', hr'', hremaining'⟩ := hrep'.next_remaining hc
      rw [hr] at hr''
      cases hr''
      refine ⟨lists', after, hrep', ?_, hremaining'⟩
      rw [hsplit, List.append_assoc]
      rfl
  | update _ hne hother hr ih =>
    obtain ⟨lists', rest, hrep', hsplit, hremaining⟩ := ih
    cases rest with
    | nil => cases hremaining
    | cons id after =>
      obtain ⟨c, before, heq, rfl, hc⟩ := hremaining
      cases heq
      obtain ⟨s'', r'', lists'', hr'', hrep'', hremaining'⟩ := hrep'.update_remaining hc hne hother
      rw [hr] at hr''
      cases hr''
      refine ⟨lists'', after, hrep'', ?_, hremaining'⟩
      rw [hsplit, List.append_assoc]
      rfl

/-- **The watch lists are exact in every run.** In every state reached, also with a cursor in use, the
    links from the head of a literal visit each clause that watches it once and no other clause, and
    end; no operation panics. A traversal visits the clauses that were in the list at its start in
    order, each once: those it has dealt with are a prefix, it stands at the first clause of the rest,
    and it ends when there is no rest, whatever watches were moved on the way. -/
theorem Reachable.visits_exactly {r : Option WatchMapCursor} (h : Reachable s r) :
    (∀ l, ∃ ids, Follows (s.link l) (s.head l) ids ∧ ids.Nodup ∧ (∀ id, id ∈ ids ↔ s.Watching id l) ∧
      ∃ r₀, s.cursor l = some r₀ ∧
        ∀ visited s' r', Traverses s r₀ visited s' r' →
          ∃ rest, ids = visited ++ rest ∧ r'.map (·.current.clauseId) = rest.head?) ∧
    ∀ c, r = some c → (∃ r', s.next c = some r') ∧
      ∀ newWatch, newWatch ≠ c.literal → s.otherWatch c ≠ some newWatch →
        ∃ s' r', s.update c newWatch = some (s', r') := by
  obtain ⟨lists, hrep, hcursor⟩ := h.invariant
  refine ⟨?_, ?_⟩
  · intro l
    refine ⟨lists l, hrep.follows l, (hrep.follows l).nodup, fun id => hrep.mem_iff, ?_⟩
    obtain ⟨r₀, hr₀, hremaining⟩ := hrep.cursor_remaining l
    refine ⟨r₀, hr₀, ?_⟩
    intro visited s' r' htraverses
    obtain ⟨lists', rest, -, hsplit, hrest⟩ := htraverses.remaining hrep hremaining
    exact ⟨rest, hsplit, hrest.clauseId⟩
  · rintro c rfl
    obtain ⟨before, after, hc⟩ := hcursor c rfl
    obtain ⟨r', hr', -⟩ := hrep.next hc
    refine ⟨⟨r', hr'⟩, ?_⟩
    intro newWatch hne hother
    obtain ⟨s', r'', hr'', -⟩ := hrep.update hc hne hother
    exact ⟨s', r'', hr''⟩

/-- Three clauses, two of which watch the literal a cursor is at. -/
def sampleState : WatchState :=
  ((({} : WatchState).alloc (some (Sat.positive 1, Sat.positive 2))).alloc none).alloc
    (some (Sat.positive 3, Sat.positive 1))

theorem sampleState_reachable :
    Reachable sampleState (some ⟨Sat.positive 1, none, ⟨2, 1⟩⟩) := by
  refine .cursor (Sat.positive 1) (.startWatching (.unwatched (.startWatching .init ?_)) ?_) ?_
  · decide
  · decide
  · decide +kernel

theorem sample_visits_exactly :
    (∀ l, ∃ ids, Follows (sampleState.link l) (sampleState.head l) ids ∧ ids.Nodup ∧
      (∀ id, id ∈ ids ↔ sampleState.Watching id l) ∧
      ∃ r₀, sampleState.cursor l = some r₀ ∧
        ∀ visited s' r', Traverses sampleState r₀ visited s' r' →
          ∃ rest, ids = visited ++ rest ∧ r'.map (·.current.clauseId) = rest.head?) ∧
    ∃ r', sampleState.next ⟨Sat.positive 1, none, ⟨2, 1⟩⟩ = some r' :=
  ⟨(Reachable.visits_exactly sampleState_reachable).1, ((Reachable.visits_exactly sampleState_reachable).2 _ rfl).1⟩

end WatchState

end Resolvo
