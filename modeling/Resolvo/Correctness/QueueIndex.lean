import Resolvo.Lib.Fold
import Resolvo.Model.DecideQueue

/-!
# `Correctness.QueueIndex` — the occurrence lists of the decide queue

The queue finds the clauses a change can make eligible through occurrence lists: by parent, by condition
variable, by package name and by requirement. `Indexed` says that these lists are complete, that the queues
hold clauses at their positions, and that the hot queue is the hot part of the queue. Registering a clause
and marking a name hot keep it.
-/

set_option linter.unusedSectionVars false

namespace Resolvo

open Sat

/-! ## Positions -/

namespace ClausePosition

theorem lt_iff {a b : ClausePosition} :
    ClausePosition.lt a b = true ↔ a.1 < b.1 ∨ (a.1 = b.1 ∧ a.2 < b.2) := by
  simp [ClausePosition.lt]

theorem lt_irrefl (a : ClausePosition) : ClausePosition.lt a a = false := by
  simp [ClausePosition.lt]

theorem lt_trans {a b c : ClausePosition} (h : ClausePosition.lt a b = true)
    (h' : ClausePosition.lt b c = true) : ClausePosition.lt a c = true := by
  rw [lt_iff] at *
  omega

theorem lt_asymm {a b : ClausePosition} (h : ClausePosition.lt a b = true) :
    ClausePosition.lt b a = false := by
  rw [Bool.eq_false_iff]
  intro h'
  rw [lt_iff] at *
  omega

theorem lt_trichotomy (a b : ClausePosition) :
    ClausePosition.lt a b = true ∨ a = b ∨ ClausePosition.lt b a = true := by
  rw [lt_iff, lt_iff, Prod.ext_iff]
  omega

end ClausePosition

namespace PositionMap

/-- The entries are in the order of their positions. -/
def Sorted (m : PositionMap) : Prop := m.Pairwise fun a b => ClausePosition.lt a.1 b.1 = true

/-- A position has one entry. -/
theorem Sorted.unique {m : PositionMap} (h : m.Sorted) {a b : ClausePosition × TrackedClauseId}
    (ha : a ∈ m) (hb : b ∈ m) (hab : a.1 = b.1) : a = b := by
  induction m with
  | nil => cases ha
  | cons e rest ih =>
      obtain ⟨hlt, hrest⟩ := List.pairwise_cons.mp h
      rcases List.mem_cons.mp ha with rfl | ha' <;> rcases List.mem_cons.mp hb with rfl | hb'
      · rfl
      · have := hlt b hb'
        rw [hab, ClausePosition.lt_irrefl] at this
        cases this
      · have := hlt a ha'
        rw [hab, ClausePosition.lt_irrefl] at this
        cases this
      · exact ih hrest ha' hb'

theorem Sorted.insert {m : PositionMap} (h : m.Sorted) (p : ClausePosition) (id : TrackedClauseId) :
    (m.insert p id).Sorted ∧ ∀ e, e ∈ m.insert p id ↔ e = (p, id) ∨ (e ∈ m ∧ e.1 ≠ p) := by
  induction m with
  | nil => simp [PositionMap.insert, Sorted]
  | cons e rest ih =>
      obtain ⟨hlt, hrest⟩ := List.pairwise_cons.mp h
      obtain ⟨ihs, ihm⟩ := ih hrest
      have hne : ∀ e' ∈ rest, e'.1 ≠ e.1 := by
        intro e' he' heq
        have := hlt e' he'
        rw [heq, ClausePosition.lt_irrefl] at this
        cases this
      simp only [PositionMap.insert]
      by_cases hp : e.1 = p
      · rw [if_pos hp]
        subst hp
        refine ⟨List.pairwise_cons.mpr ⟨hlt, hrest⟩, fun e' => ?_⟩
        simp only [List.mem_cons]
        constructor
        · rintro (rfl | he')
          · exact .inl rfl
          · exact .inr ⟨.inr he', hne e' he'⟩
        · rintro (rfl | ⟨rfl | he', hn⟩)
          · exact .inl rfl
          · exact absurd rfl hn
          · exact .inr he'
      rw [if_neg hp]
      by_cases hlt' : ClausePosition.lt p e.1 = true
      · rw [if_pos hlt']
        have hall : ∀ e' ∈ e :: rest, ClausePosition.lt p e'.1 = true := by
          intro e' he'
          rcases List.mem_cons.mp he' with rfl | he'
          · exact hlt'
          · exact ClausePosition.lt_trans hlt' (hlt e' he')
        refine ⟨List.pairwise_cons.mpr ⟨hall, h⟩, fun e' => ?_⟩
        rw [List.mem_cons]
        refine or_congr_right ⟨fun he' => ⟨he', fun heq => ?_⟩, And.left⟩
        have := hall e' he'
        rw [heq, ClausePosition.lt_irrefl] at this
        cases this
      · rw [if_neg hlt']
        have hgt : ClausePosition.lt e.1 p = true := by
          rcases ClausePosition.lt_trichotomy e.1 p with h | h | h
          · exact h
          · exact absurd h hp
          · exact absurd h hlt'
        refine ⟨List.pairwise_cons.mpr ⟨fun e' he' => ?_, ihs⟩, fun e' => ?_⟩
        · rcases (ihm e').mp he' with rfl | ⟨he', -⟩
          · exact hgt
          · exact hlt e' he'
        · rw [List.mem_cons, ihm, List.mem_cons]
          constructor
          · rintro (rfl | rfl | ⟨he', hn⟩)
            · exact .inr ⟨.inl rfl, hp⟩
            · exact .inl rfl
            · exact .inr ⟨.inr he', hn⟩
          · rintro (rfl | ⟨rfl | he', hn⟩)
            · exact .inr (.inl rfl)
            · exact .inl rfl
            · exact .inr (.inr ⟨he', hn⟩)

theorem Sorted.mem_insert {m : PositionMap} (h : m.Sorted) {p : ClausePosition} {id : TrackedClauseId}
    {e : ClausePosition × TrackedClauseId} :
    e ∈ m.insert p id ↔ e = (p, id) ∨ (e ∈ m ∧ e.1 ≠ p) := (h.insert p id).2 e

theorem Sorted.remove {m : PositionMap} (h : m.Sorted) (p : ClausePosition) : (m.remove p).Sorted :=
  List.Pairwise.filter _ h

theorem mem_remove {m : PositionMap} {p : ClausePosition} {e : ClausePosition × TrackedClauseId} :
    e ∈ m.remove p ↔ e ∈ m ∧ e.1 ≠ p := by simp [PositionMap.remove]

end PositionMap

namespace DecideQueue

variable {N S : Type} [DecidableEq N] [DecidableEq S]

/-! ## Lists under a key -/

theorem mem_distinctNames {names : List N} {name : N} :
    name ∈ distinctNames names ↔ name ∈ names := by
  have hfold : ∀ (l seen : List N), name ∈ l.foldl (fun seen name =>
      if name ∈ seen then seen else seen ++ [name]) seen ↔ name ∈ seen ∨ name ∈ l := by
    intro l
    induction l with
    | nil => simp
    | cons a l ih =>
        intro seen
        rw [List.foldl_cons, ih, List.mem_cons]
        by_cases ha : a ∈ seen
        · rw [if_pos ha]
          constructor
          · exact fun h => h.imp_right .inr
          · rintro (h | rfl | h)
            · exact .inl h
            · exact .inl ha
            · exact .inr h
        · rw [if_neg ha, List.mem_append, List.mem_singleton, or_assoc]
  exact (hfold names []).trans (by simp)

theorem getD_pushTo {K V : Type} [DecidableEq K] (m : IndexMap K (List V)) (k k' : K) (v : V) :
    (pushTo m k v).getD k' [] = if k = k' then m.getD k [] ++ [v] else m.getD k' [] := by
  rw [pushTo, IndexMap.getD_insert]

theorem mem_pushTo {K V : Type} [DecidableEq K] {m : IndexMap K (List V)} {k k' : K} {v w : V} :
    w ∈ (pushTo m k v).getD k' [] ↔ w ∈ m.getD k' [] ∨ (k = k' ∧ w = v) := by
  rw [getD_pushTo]
  by_cases hk : k = k'
  · subst hk
    simp
  · simp [hk]

/-- Appending under several keys appends under each of them. -/
theorem mem_foldl_pushTo {K V α : Type} [DecidableEq K] (key : α → K) (ks : List α) (v w : V) (k : K)
    (m : IndexMap K (List V)) :
    w ∈ (ks.foldl (fun m a => pushTo m (key a) v) m).getD k [] ↔
      w ∈ m.getD k [] ∨ (k ∈ ks.map key ∧ w = v) := by
  induction ks generalizing m with
  | nil => simp
  | cons a ks ih =>
      rw [List.foldl_cons, ih, mem_pushTo, List.map_cons, List.mem_cons, or_assoc]
      refine or_congr_right ?_
      constructor
      · rintro (⟨rfl, rfl⟩ | ⟨hk, rfl⟩)
        · exact ⟨.inl rfl, rfl⟩
        · exact ⟨.inr hk, rfl⟩
      · rintro ⟨rfl | hk, rfl⟩
        · exact .inl ⟨rfl, rfl⟩
        · exact .inr ⟨hk, rfl⟩

/-! ## The index -/

/-- The names of the packages a clause has candidates of. -/
def clauseNames (P : DependencyProvider N S) (requirement : Requirement) : List N :=
  (requirement.versionSets P).map P.versionSetName

/-- The literals of a condition, all of which have to be false. -/
def conditionLiterals (disjunctions : List Disjunction) (condition : Option DisjunctionId) :
    List Literal :=
  (condition.bind fun d => (disjunctions[d]?).map Disjunction.literals).getD []

/-- The occurrence lists are complete for the registered clauses, and the hot queue is the hot part of the
    queue. The hot clauses are the `marked` ones. -/
structure Indexed (P : DependencyProvider N S) (disjunctions : List Disjunction)
    (marked : TrackedClauseId → Prop) (q : DecideQueue N) : Prop where
  parent_lt : ∀ parent pos, q.parentPositions.get? parent = some pos → pos < q.clausesByParent.length
  position : ∀ (id : TrackedClauseId) c, q.clauses[id]? = some c →
    q.parentPositions.get? c.parent = some c.position.1 ∧
      ∃ ids, q.clausesByParent[c.position.1]? = some ids ∧ ids[c.position.2]? = some id
  allocated : ∀ (id : TrackedClauseId) c d, q.clauses[id]? = some c → c.condition = some d →
    d < disjunctions.length
  byCondition : ∀ (id : TrackedClauseId) c, q.clauses[id]? = some c →
    ∀ l ∈ conditionLiterals disjunctions c.condition,
      id ∈ q.clausesByConditionVariable.getD l.var []
  byRequirement : ∀ (id : TrackedClauseId) c, q.clauses[id]? = some c →
    id ∈ q.clausesByRequirement.getD c.requirement []
  byName : ∀ (id : TrackedClauseId) name, id ∈ q.clausesByName.getD name [] ↔
    ∃ c, q.clauses[id]? = some c ∧ name ∈ clauseNames P c.requirement
  hot : ∀ (id : TrackedClauseId) c, q.clauses[id]? = some c → (c.hot = true ↔ marked id)
  queued : ∀ e ∈ q.queue, ∃ c, q.clauses[e.2]? = some c ∧ c.position = e.1
  hotQueued : ∀ e, e ∈ q.hotQueue ↔ e ∈ q.queue ∧ ∃ c, q.clauses[e.2]? = some c ∧ c.hot = true
  sorted : q.queue.Sorted
  hotSorted : q.hotQueue.Sorted

namespace Indexed

variable {P : DependencyProvider N S} {disjunctions : List Disjunction}
  {marked : TrackedClauseId → Prop} {q : DecideQueue N}

/-- The index only reads the clauses, the queues and the occurrence lists. -/
theorem congr {q' : DecideQueue N} {marked' : TrackedClauseId → Prop}
    (h : Indexed P disjunctions marked q) (hm : ∀ id, marked' id ↔ marked id)
    (hclauses : q'.clauses = q.clauses) (hparents : q'.parentPositions = q.parentPositions)
    (hlists : q'.clausesByParent = q.clausesByParent) (hnames : q'.clausesByName = q.clausesByName)
    (hconditions : q'.clausesByConditionVariable = q.clausesByConditionVariable)
    (hrequirements : q'.clausesByRequirement = q.clausesByRequirement) (hqueue : q'.queue = q.queue)
    (hhot : q'.hotQueue = q.hotQueue) : Indexed P disjunctions marked' q' where
  parent_lt := by rw [hparents, hlists]; exact h.parent_lt
  position := by rw [hclauses, hparents, hlists]; exact h.position
  allocated := by rw [hclauses]; exact h.allocated
  byCondition := by rw [hclauses, hconditions]; exact h.byCondition
  byRequirement := by rw [hclauses, hrequirements]; exact h.byRequirement
  byName := by rw [hclauses, hnames]; exact h.byName
  hot := by rw [hclauses]; exact fun id c hc => (h.hot id c hc).trans (hm id).symm
  queued := by rw [hclauses, hqueue]; exact h.queued
  hotQueued := by rw [hclauses, hqueue, hhot]; exact h.hotQueued
  sorted := by rw [hqueue]; exact h.sorted
  hotSorted := by rw [hhot]; exact h.hotSorted

/-- A position belongs to one clause. -/
theorem position_inj (h : Indexed P disjunctions marked q) {id id' : TrackedClauseId}
    {c c' : TrackedClause} (hc : q.clauses[id]? = some c) (hc' : q.clauses[id']? = some c')
    (hp : c.position = c'.position) : id = id' := by
  obtain ⟨-, ids, hids, hid⟩ := h.position id c hc
  obtain ⟨-, ids', hids', hid'⟩ := h.position id' c' hc'
  rw [hp, hids', Option.some.injEq] at hids
  rw [hp, ← hids, hid', Option.some.injEq] at hid
  exact hid.symm

/-- An entry of the queue at the position of a clause is the entry of that clause. -/
theorem queued_eq (h : Indexed P disjunctions marked q) {id : TrackedClauseId} {c : TrackedClause}
    (hc : q.clauses[id]? = some c) {e : ClausePosition × TrackedClauseId} (he : e ∈ q.queue)
    (hp : e.1 = c.position) : e = (c.position, id) := by
  obtain ⟨c', hc', hpos⟩ := h.queued e he
  have : e.2 = id := h.position_inj hc' hc (hpos.trans hp)
  exact Prod.ext hp this

end Indexed

/-! ## Registering a clause -/

/-- A clause is marked when one of its names is hot. -/
def Marked (P : DependencyProvider N S) (q : DecideQueue N) (id : TrackedClauseId) : Prop :=
  ∃ c, q.clauses[id]? = some c ∧ ∃ name ∈ clauseNames P c.requirement, name ∈ q.hotNames

section Register

variable {P : DependencyProvider N S} {disjunctions : List Disjunction}
  {marked : TrackedClauseId → Prop} {q : DecideQueue N}

/-- Looking up the list of a parent only allocates it. -/
theorem parentPosition_eq (q : DecideQueue N) (parent : VariableId) :
    ∃ positions lists, (q.parentPosition parent).2 =
      { q with parentPositions := positions, clausesByParent := lists } := by
  simp only [parentPosition]
  split
  · exact ⟨q.parentPositions, q.clausesByParent, rfl⟩
  · exact ⟨_, _, rfl⟩

theorem Indexed.parentPosition (h : Indexed P disjunctions marked q) (parent : VariableId) :
    Indexed P disjunctions marked (q.parentPosition parent).2 ∧
      (q.parentPosition parent).2.parentPositions.get? parent = some (q.parentPosition parent).1 := by
  simp only [DecideQueue.parentPosition]
  split
  · next pos hpos => exact ⟨h, hpos⟩
  · next hnone =>
      refine ⟨{ h with parent_lt := fun p pos hp => ?_, position := fun id c hc => ?_ },
        IndexMap.get?_insert_self _ _ _⟩
      · rw [IndexMap.get?_insert] at hp
        rw [List.length_append, List.length_singleton]
        split at hp
        · rw [Option.some.injEq] at hp
          omega
        · have := h.parent_lt p pos hp
          omega
      · obtain ⟨hpos, ids, hids, hid⟩ := h.position id c hc
        have hne : parent ≠ c.parent := by
          rintro rfl
          rw [hnone] at hpos
          cases hpos
        refine ⟨by rw [IndexMap.get?_insert_ne _ _ hne]; exact hpos, ids, ?_, hid⟩
        rw [List.getElem?_append_left (List.getElem?_eq_some_iff.mp hids).1]
        exact hids

/-- What registering a clause does, once its parent has a list. -/
theorem registerClause_eq {parent : VariableId} {requirement : Requirement}
    {condition : Option DisjunctionId} {clauseId : ClauseId} {names : List N}
    {parentValue : Option Bool} {pos : Nat} {q0 : DecideQueue N} {siblings : List TrackedClauseId}
    (hr : q.parentPosition parent = (pos, q0)) (hsib : q0.clausesByParent[pos]? = some siblings) :
    q.registerClause parent requirement condition clauseId names disjunctions parentValue =
      let hot := (distinctNames names).any fun name => name ∈ q0.hotNames
      let position := (pos, siblings.length)
      let fresh := q0.clauses.length
      { q0 with
        clauses := q0.clauses ++ [⟨position, parent, requirement, condition, clauseId, hot⟩]
        clausesByParent := q0.clausesByParent.set pos (siblings ++ [fresh])
        clausesByName := (distinctNames names).foldl (fun m name => pushTo m name fresh) q0.clausesByName
        clausesByConditionVariable :=
          (conditionLiterals disjunctions condition).foldl (fun m l => pushTo m l.var fresh)
            q0.clausesByConditionVariable
        requirementStates :=
          match q0.requirementStates.get? requirement with
          | some _ => q0.requirementStates
          | none => q0.requirementStates.insert requirement {}
        clausesByRequirement := pushTo q0.clausesByRequirement requirement fresh
        queue :=
          if parentValue = some true then PositionMap.insert position fresh q0.queue else q0.queue
        hotQueue :=
          if parentValue = some true ∧ hot then PositionMap.insert position fresh q0.hotQueue
          else q0.hotQueue } := by
  simp only [registerClause, hr, hsib, Option.getD_some]
  rfl

/-- Registering a clause keeps the occurrence lists complete. -/
theorem Indexed.registerClause (h : Indexed P disjunctions (Marked P q) q) (parent : VariableId)
    (requirement : Requirement) {condition : Option DisjunctionId} (clauseId : ClauseId)
    (hcond : ∀ d, condition = some d → d < disjunctions.length) (parentValue : Option Bool) :
    Indexed P disjunctions
      (Marked P (q.registerClause parent requirement condition clauseId (clauseNames P requirement)
        disjunctions parentValue))
      (q.registerClause parent requirement condition clauseId (clauseNames P requirement)
        disjunctions parentValue) := by
  obtain ⟨h0, hpp⟩ := h.parentPosition parent
  obtain ⟨positions, lists, heq⟩ := parentPosition_eq q parent
  generalize hr : q.parentPosition parent = r at h0 hpp heq
  obtain ⟨pos, q0⟩ := r
  dsimp only at h0 hpp heq
  have hposlt := h0.parent_lt parent pos hpp
  obtain ⟨siblings, hsib⟩ : ∃ siblings, q0.clausesByParent[pos]? = some siblings :=
    ⟨_, List.getElem?_eq_getElem hposlt⟩
  rw [registerClause_eq hr hsib]
  have hmarked : Marked P q = Marked P q0 := by rw [heq]; rfl
  rw [hmarked] at h0
  clear heq hr hmarked h
  dsimp only
  generalize hhot : ((distinctNames (clauseNames P requirement)).any fun name =>
    decide (name ∈ q0.hotNames)) = hot
  have hhot' : hot = true ↔ ∃ name ∈ clauseNames P requirement, name ∈ q0.hotNames := by
    rw [← hhot, List.any_eq_true]
    exact exists_congr fun name => by rw [mem_distinctNames, decide_eq_true_eq]
  set fresh := q0.clauses.length with hfresh
  set new : TrackedClause := ⟨(pos, siblings.length), parent, requirement, condition, clauseId, hot⟩
    with hnew
  -- the clauses before the registration keep their ids
  have hold : ∀ {i : TrackedClauseId} {c : TrackedClause}, (q0.clauses ++ [new])[i]? = some c ↔
      q0.clauses[i]? = some c ∨ (i = fresh ∧ c = new) := by
    intro i c
    rcases Nat.lt_trichotomy i fresh with hlt | heq | hgt
    · rw [List.getElem?_append_left hlt]
      exact ⟨.inl, fun h => h.resolve_right fun h => absurd h.1 (Nat.ne_of_lt hlt)⟩
    · rw [heq, hfresh, List.getElem?_concat_length, List.getElem?_eq_none le_rfl]
      simp [eq_comm]
    · rw [List.getElem?_eq_none (by simp; omega), List.getElem?_eq_none (Nat.le_of_lt hgt)]
      exact ⟨fun h => (by cases h), fun h => absurd (h.resolve_left (by simp)).1 (Nat.ne_of_gt hgt)⟩
  have hpos_ne : ∀ e ∈ q0.queue, e.1 ≠ (pos, siblings.length) := by
    intro e he hpos
    obtain ⟨c, hc, hce⟩ := h0.queued e he
    obtain ⟨-, ids, hids, hidx⟩ := h0.position _ c hc
    rw [hce, hpos] at hids hidx
    rw [hsib, Option.some.injEq] at hids
    rw [← hids, List.getElem?_eq_none le_rfl] at hidx
    cases hidx
  have hmem : ∀ e, e ∈ (if parentValue = some true then
        PositionMap.insert (pos, siblings.length) fresh q0.queue else q0.queue) ↔
      (parentValue = some true ∧ e = ((pos, siblings.length), fresh)) ∨ e ∈ q0.queue := by
    intro e
    split
    · next hp =>
        rw [h0.sorted.mem_insert]
        exact or_congr (by simp [hp]) ⟨And.left, fun he => ⟨he, hpos_ne e he⟩⟩
    · next hp => simp [hp]
  refine ⟨?_, ?_, ?_, ?_, ?_, ?_, ?_, ?_, ?_, ?_, ?_⟩
  · intro p k hp
    rw [List.length_set]
    exact h0.parent_lt p k hp
  · intro i c hc
    rcases hold.mp hc with hc | ⟨rfl, rfl⟩
    · obtain ⟨hp, ids, hids, hi⟩ := h0.position i c hc
      refine ⟨hp, ?_⟩
      by_cases hk : pos = c.position.1
      · rw [← hk, hsib, Option.some.injEq] at hids
        subst hids
        refine ⟨siblings ++ [fresh], by rw [← hk, List.getElem?_set_self hposlt], ?_⟩
        rw [List.getElem?_append_left (List.getElem?_eq_some_iff.mp hi).1]
        exact hi
      · exact ⟨ids, by rw [List.getElem?_set_ne hk]; exact hids, hi⟩
    · exact ⟨hpp, siblings ++ [fresh], List.getElem?_set_self hposlt, List.getElem?_concat_length⟩
  · intro i c d hc hd
    rcases hold.mp hc with hc | ⟨-, rfl⟩
    · exact h0.allocated i c d hc hd
    · exact hcond d hd
  · intro i c hc l hl
    rw [mem_foldl_pushTo]
    rcases hold.mp hc with hc | ⟨rfl, rfl⟩
    · exact .inl (h0.byCondition i c hc l hl)
    · exact .inr ⟨List.mem_map_of_mem hl, rfl⟩
  · intro i c hc
    rw [mem_pushTo]
    rcases hold.mp hc with hc | ⟨rfl, rfl⟩
    · exact .inl (h0.byRequirement i c hc)
    · exact .inr ⟨rfl, rfl⟩
  · intro i name
    dsimp only
    rw [mem_foldl_pushTo (fun name => name), List.map_id', mem_distinctNames, h0.byName]
    constructor
    · rintro (⟨c, hc, hn⟩ | ⟨hn, rfl⟩)
      · exact ⟨c, hold.mpr (.inl hc), hn⟩
      · exact ⟨new, hold.mpr (.inr ⟨rfl, rfl⟩), hn⟩
    · rintro ⟨c, hc, hn⟩
      rcases hold.mp hc with hc | ⟨rfl, rfl⟩
      · exact .inl ⟨c, hc, hn⟩
      · exact .inr ⟨hn, rfl⟩
  · intro i c hc
    rcases hold.mp hc with hc' | ⟨rfl, rfl⟩
    · rw [h0.hot i c hc']
      constructor
      · rintro ⟨c', hc'', hn⟩
        exact ⟨c', hold.mpr (.inl hc''), hn⟩
      · rintro ⟨c', hc'', hn⟩
        rcases hold.mp hc'' with hc'' | ⟨rfl, rfl⟩
        · exact ⟨c', hc'', hn⟩
        · rw [List.getElem?_eq_none le_rfl] at hc'
          cases hc'
    · refine hhot'.trans ?_
      constructor
      · exact fun hn => ⟨new, hold.mpr (.inr ⟨rfl, rfl⟩), hn⟩
      · rintro ⟨c', hc', hn⟩
        rw [hc, Option.some.injEq] at hc'
        subst hc'
        exact hn
  · intro e he
    rcases (hmem e).mp he with ⟨-, rfl⟩ | he
    · exact ⟨new, hold.mpr (.inr ⟨rfl, rfl⟩), rfl⟩
    · obtain ⟨c, hc, hce⟩ := h0.queued e he
      exact ⟨c, hold.mpr (.inl hc), hce⟩
  · intro e
    rw [hmem]
    have hhotmem : (parentValue = some true ∧ hot = true ∧ e = ((pos, siblings.length), fresh)) ∨
        e ∈ q0.hotQueue ↔
        ((parentValue = some true ∧ e = ((pos, siblings.length), fresh)) ∨ e ∈ q0.queue) ∧
          ∃ c, (q0.clauses ++ [new])[e.2]? = some c ∧ c.hot = true := by
      rw [h0.hotQueued]
      constructor
      · rintro (⟨hp, hh, rfl⟩ | ⟨he, c, hc, hh⟩)
        · exact ⟨.inl ⟨hp, rfl⟩, new, hold.mpr (.inr ⟨rfl, rfl⟩), hh⟩
        · exact ⟨.inr he, c, hold.mpr (.inl hc), hh⟩
      · rintro ⟨⟨hp, rfl⟩ | he, c, hc, hh⟩
        · rcases hold.mp hc with hc | ⟨-, rfl⟩
          · rw [List.getElem?_eq_none le_rfl] at hc
            cases hc
          · exact .inl ⟨hp, hh, rfl⟩
        · obtain ⟨c', hc', -⟩ := h0.queued e he
          have : c' = c := Option.some.inj ((hold.mpr (.inl hc')).symm.trans hc)
          exact .inr ⟨he, c', hc', this ▸ hh⟩
    refine Iff.trans ?_ hhotmem
    dsimp only
    split
    · next hp =>
        rw [h0.hotSorted.mem_insert]
        refine or_congr ⟨fun he => ⟨hp.1, hp.2, he⟩, fun he => he.2.2⟩ ⟨And.left, fun he => ⟨he, ?_⟩⟩
        exact hpos_ne e ((h0.hotQueued e).mp he).1
    · next hp =>
        exact ⟨.inr, fun he => he.resolve_left fun he => hp ⟨he.1, he.2.1⟩⟩
  · dsimp only
    split
    · exact (h0.sorted.insert _ _).1
    · exact h0.sorted
  · dsimp only
    split
    · exact (h0.hotSorted.insert _ _).1
    · exact h0.hotSorted

end Register

/-! ## Marking a name -/

section Hot

variable {P : DependencyProvider N S} {disjunctions : List Disjunction}
  {marked : TrackedClauseId → Prop} {q : DecideQueue N}

theorem promote_none {id : TrackedClauseId} (hc : q.clauses[id]? = none) : q.promote id = q := by
  rw [promote, hc]

theorem promote_hot {id : TrackedClauseId} {clause : TrackedClause} (hc : q.clauses[id]? = some clause)
    (hh : clause.hot = true) : q.promote id = q := by
  rw [promote, hc]
  exact if_pos hh

theorem promote_cold {id : TrackedClauseId} {clause : TrackedClause}
    (hc : q.clauses[id]? = some clause) (hh : clause.hot = false) :
    q.promote id =
      { q with
        clauses := q.clauses.set id { clause with hot := true }
        hotQueue :=
          match q.queue.find? (fun e => e.1 = clause.position) with
          | some (position, queued) => PositionMap.insert position queued q.hotQueue
          | none => q.hotQueue } := by
  rw [promote, hc]
  exact if_neg (by simp [hh])

theorem promote_clauses (q : DecideQueue N) (id i : TrackedClauseId) :
    (q.promote id).clauses[i]? =
      (q.clauses[i]?).map fun c => if i = id then { c with hot := true } else c := by
  cases hc : q.clauses[id]? with
  | none =>
      rw [promote_none hc]
      by_cases hi : i = id
      · rw [hi, hc, Option.map_none]
      · simp [hi]
  | some clause =>
      obtain ⟨hlt, -⟩ := List.getElem?_eq_some_iff.mp hc
      cases hh : clause.hot with
      | true =>
          rw [promote_hot hc hh]
          by_cases hi : i = id
          · obtain ⟨position, parent, requirement, condition, clauseId, hot⟩ := clause
            simp only at hh
            rw [hi, hc, hh, Option.map_some, if_pos rfl]
          · simp [hi]
      | false =>
          rw [promote_cold hc hh]
          by_cases hi : i = id
          · rw [hi, List.getElem?_set_self hlt, hc, Option.map_some, if_pos rfl]
          · simp [hi, List.getElem?_set_ne (Ne.symm hi)]

/-- The parts of the queue promoting a clause does not touch. -/
theorem promote_frame (q : DecideQueue N) (id : TrackedClauseId) :
    ∃ clauses hotQueue, q.promote id = { q with clauses := clauses, hotQueue := hotQueue } := by
  simp only [promote]
  split
  · exact ⟨_, _, rfl⟩
  · split
    · exact ⟨_, _, rfl⟩
    · exact ⟨_, _, rfl⟩

/-- Promoting a clause adds its entry of the queue to the hot queue. -/
theorem Indexed.promote_hotQueue (h : Indexed P disjunctions marked q) (id : TrackedClauseId) :
    (q.promote id).hotQueue.Sorted ∧
      ∀ e, e ∈ (q.promote id).hotQueue ↔ e ∈ q.hotQueue ∨ (e ∈ q.queue ∧ e.2 = id) := by
  have hsame : (∀ e ∈ q.queue, e.2 = id → e ∈ q.hotQueue) →
      ∀ e, e ∈ q.hotQueue ↔ e ∈ q.hotQueue ∨ (e ∈ q.queue ∧ e.2 = id) :=
    fun hall e => ⟨.inl, fun he => he.elim (fun he => he) fun he => hall e he.1 he.2⟩
  cases hc : q.clauses[id]? with
  | none =>
      rw [promote_none hc]
      refine ⟨h.hotSorted, hsame fun e he hid => ?_⟩
      obtain ⟨c, hc', -⟩ := h.queued e he
      rw [hid, hc] at hc'
      cases hc'
  | some clause =>
      cases hh : clause.hot with
      | true =>
          rw [promote_hot hc hh]
          exact ⟨h.hotSorted, hsame fun e he hid => (h.hotQueued e).mpr ⟨he, clause, hid ▸ hc, hh⟩⟩
      | false =>
          rw [promote_cold hc hh]
          dsimp only
          cases hf : q.queue.find? (fun e => e.1 = clause.position) with
          | none =>
              refine ⟨h.hotSorted, hsame fun e he hid => ?_⟩
              obtain ⟨c, hc', hp⟩ := h.queued e he
              rw [hid, hc, Option.some.injEq] at hc'
              have := List.find?_eq_none.mp hf e he
              simp [hc', hp] at this
          | some e₀ =>
              have he₀ := List.mem_of_find?_eq_some hf
              have hp₀ : e₀.1 = clause.position := by simpa using List.find?_some hf
              obtain rfl := h.queued_eq hc he₀ hp₀
              refine ⟨(h.hotSorted.insert _ _).1, fun e => ?_⟩
              rw [h.hotSorted.mem_insert]
              constructor
              · rintro (rfl | ⟨he, -⟩)
                · exact .inr ⟨he₀, rfl⟩
                · exact .inl he
              · rintro (he | ⟨he, hid⟩)
                · by_cases hp : e.1 = clause.position
                  · exact .inl (h.queued_eq hc ((h.hotQueued e).mp he).1 hp)
                  · exact .inr ⟨he, hp⟩
                · obtain ⟨c, hc', hp⟩ := h.queued e he
                  rw [hid, hc, Option.some.injEq] at hc'
                  exact .inl (h.queued_eq hc he (by rw [hc', hp]))

/-- Promoting a clause marks it. -/
theorem Indexed.promote (h : Indexed P disjunctions marked q) (id : TrackedClauseId) :
    Indexed P disjunctions (fun i => marked i ∨ i = id) (q.promote id) := by
  -- a clause keeps everything but its hot flag
  have hold : ∀ {i : TrackedClauseId} {c : TrackedClause}, (q.promote id).clauses[i]? = some c →
      ∃ c', q.clauses[i]? = some c' ∧ c = if i = id then { c' with hot := true } else c' := by
    intro i c hc
    rw [promote_clauses, Option.map_eq_some_iff] at hc
    obtain ⟨c', hc', rfl⟩ := hc
    exact ⟨c', hc', rfl⟩
  have hnew : ∀ {i : TrackedClauseId} {c : TrackedClause}, q.clauses[i]? = some c →
      (q.promote id).clauses[i]? = some (if i = id then { c with hot := true } else c) := by
    intro i c hc
    rw [promote_clauses, hc, Option.map_some]
  have hsame : ∀ {i : TrackedClauseId} {c : TrackedClause} (c' : TrackedClause),
      (c = if i = id then { c' with hot := true } else c') →
      c.position = c'.position ∧ c.parent = c'.parent ∧ c.requirement = c'.requirement ∧
        c.condition = c'.condition := by
    rintro i c c' rfl
    split <;> exact ⟨rfl, rfl, rfl, rfl⟩
  obtain ⟨clauses, hotQueue, heq⟩ := promote_frame q id
  have hqueue : (q.promote id).queue = q.queue := by rw [heq]
  refine ⟨?_, ?_, ?_, ?_, ?_, ?_, ?_, ?_, ?_, ?_, ?_⟩
  · rw [heq]
    exact h.parent_lt
  · intro i c hc
    obtain ⟨c', hc', hcc⟩ := hold hc
    obtain ⟨hp, hpar, -, -⟩ := hsame c' hcc
    rw [hp, hpar, heq]
    exact h.position i c' hc'
  · intro i c d hc hd
    obtain ⟨c', hc', hcc⟩ := hold hc
    exact h.allocated i c' d hc' ((hsame c' hcc).2.2.2 ▸ hd)
  · intro i c hc
    obtain ⟨c', hc', hcc⟩ := hold hc
    rw [(hsame c' hcc).2.2.2, heq]
    exact h.byCondition i c' hc'
  · intro i c hc
    obtain ⟨c', hc', hcc⟩ := hold hc
    rw [(hsame c' hcc).2.2.1, heq]
    exact h.byRequirement i c' hc'
  · intro i name
    have hby : (q.promote id).clausesByName = q.clausesByName := by rw [heq]
    rw [hby, h.byName]
    constructor
    · rintro ⟨c, hc, hn⟩
      refine ⟨_, hnew hc, ?_⟩
      split <;> exact hn
    · rintro ⟨c, hc, hn⟩
      obtain ⟨c', hc', hcc⟩ := hold hc
      exact ⟨c', hc', (hsame c' hcc).2.2.1 ▸ hn⟩
  · intro i c hc
    obtain ⟨c', hc', rfl⟩ := hold hc
    by_cases hi : i = id
    · simp [hi]
    · simp [hi, h.hot i c' hc']
  · intro e he
    obtain ⟨c, hc, hp⟩ := h.queued e (hqueue ▸ he)
    refine ⟨_, hnew hc, ?_⟩
    split <;> exact hp
  · intro e
    rw [hqueue, (h.promote_hotQueue id).2, h.hotQueued]
    constructor
    · rintro (⟨he, c, hc, hh⟩ | ⟨he, hid⟩)
      · refine ⟨he, _, hnew hc, ?_⟩
        split
        · rfl
        · exact hh
      · obtain ⟨c, hc, -⟩ := h.queued e he
        exact ⟨he, _, hnew hc, by rw [if_pos hid]⟩
    · rintro ⟨he, c, hc, hh⟩
      obtain ⟨c', hc', rfl⟩ := hold hc
      by_cases hi : e.2 = id
      · exact .inr ⟨he, hi⟩
      · rw [if_neg hi] at hh
        exact .inl ⟨he, c', hc', hh⟩
  · rw [hqueue]
    exact h.sorted
  · exact (h.promote_hotQueue id).1

/-- Promoting several clauses marks all of them. -/
theorem Indexed.foldl_promote (h : Indexed P disjunctions marked q) (ids : List TrackedClauseId) :
    Indexed P disjunctions (fun i => marked i ∨ i ∈ ids) (ids.foldl DecideQueue.promote q) := by
  induction ids generalizing q marked with
  | nil => exact h.congr (fun i => by simp) rfl rfl rfl rfl rfl rfl rfl rfl
  | cons id ids ih =>
      refine (ih (h.promote id)).congr (fun i => ?_) rfl rfl rfl rfl rfl rfl rfl rfl
      rw [List.mem_cons, or_assoc]

theorem foldl_promote_requirement (ids : List TrackedClauseId) (i : TrackedClauseId) :
    ((ids.foldl promote q).clauses[i]?).map TrackedClause.requirement =
      (q.clauses[i]?).map TrackedClause.requirement := by
  induction ids generalizing q with
  | nil => rfl
  | cons id ids ih =>
      rw [List.foldl_cons, ih, promote_clauses, Option.map_map]
      congr 1
      funext c
      rw [Function.comp]
      split <;> rfl

theorem foldl_promote_frame (ids : List TrackedClauseId) :
    ∃ clauses hotQueue, ids.foldl promote q = { q with clauses := clauses, hotQueue := hotQueue } := by
  induction ids generalizing q with
  | nil => exact ⟨_, _, rfl⟩
  | cons id ids ih =>
      obtain ⟨clauses, hotQueue, heq⟩ := promote_frame q id
      obtain ⟨clauses', hotQueue', heq'⟩ := ih (q := q.promote id)
      exact ⟨clauses', hotQueue', by rw [List.foldl_cons, heq', heq]⟩

/-- What marking a name changes. -/
theorem markNameHot_frame (q : DecideQueue N) (name : N) :
    ∃ clauses hotQueue hotNames, q.markNameHot name =
        { q with clauses := clauses, hotQueue := hotQueue, hotNames := hotNames } ∧
      (∀ i : TrackedClauseId, (clauses[i]?).map TrackedClause.requirement =
        (q.clauses[i]?).map TrackedClause.requirement) ∧
      ∀ n, n ∈ hotNames ↔ n ∈ q.hotNames ∨ n = name := by
  simp only [markNameHot]
  split
  · next hn =>
      exact ⟨_, _, _, rfl, fun i => rfl, fun n => ⟨.inl, fun h => h.elim (fun h => h) fun h => h ▸ hn⟩⟩
  · obtain ⟨clauses, hotQueue, heq⟩ := foldl_promote_frame (q.clausesByName.getD name [])
      (q := { q with hotNames := q.hotNames ++ [name] })
    refine ⟨clauses, hotQueue, q.hotNames ++ [name], heq, fun i => ?_, fun n => by simp⟩
    rw [← foldl_promote_requirement (q := { q with hotNames := q.hotNames ++ [name] })
      (q.clausesByName.getD name []) i, heq]

/-- Marking a name changes at most the hot flag of a clause. -/
theorem markNameHot_clauses (q : DecideQueue N) (name : N) (id : TrackedClauseId) (c : TrackedClause)
    (hc : (q.markNameHot name).clauses[id]? = some c) :
    ∃ c', q.clauses[id]? = some c' ∧ c.position = c'.position ∧ c.parent = c'.parent ∧
      c.requirement = c'.requirement ∧ c.condition = c'.condition := by
  have hfold : ∀ (ids : List TrackedClauseId) (q : DecideQueue N),
      (ids.foldl promote q).clauses[id]? = some c →
      ∃ c', q.clauses[id]? = some c' ∧ c.position = c'.position ∧ c.parent = c'.parent ∧
        c.requirement = c'.requirement ∧ c.condition = c'.condition := by
    intro ids
    induction ids with
    | nil => exact fun q hc => ⟨c, hc, rfl, rfl, rfl, rfl⟩
    | cons i ids ih =>
        intro q hc
        obtain ⟨c₁, hc₁, hp, hpar, hreq, hcond⟩ := ih (q.promote i) hc
        rw [promote_clauses, Option.map_eq_some_iff] at hc₁
        obtain ⟨c', hc', rfl⟩ := hc₁
        refine ⟨c', hc', ?_⟩
        rw [hp, hpar, hreq, hcond]
        split <;> exact ⟨rfl, rfl, rfl, rfl⟩
  simp only [markNameHot] at hc
  split at hc
  · exact ⟨c, hc, rfl, rfl, rfl, rfl⟩
  · exact hfold _ { q with hotNames := q.hotNames ++ [name] } hc

/-- Marking a name makes exactly the clauses hot that mention it. -/
theorem Indexed.markNameHot (h : Indexed P disjunctions (Marked P q) q) (name : N) :
    Indexed P disjunctions (Marked P (q.markNameHot name)) (q.markNameHot name) := by
  by_cases hn : name ∈ q.hotNames
  · rw [show q.markNameHot name = q from if_pos hn]
    exact h
  have heq : q.markNameHot name = (q.clausesByName.getD name []).foldl DecideQueue.promote
      { q with hotNames := q.hotNames ++ [name] } := if_neg hn
  have h1 : Indexed P disjunctions (Marked P q) { q with hotNames := q.hotNames ++ [name] } :=
    h.congr (fun _ => Iff.rfl) rfl rfl rfl rfl rfl rfl rfl rfl
  have h2 := h1.foldl_promote (q.clausesByName.getD name [])
  obtain ⟨clauses, hotQueue, hotNames, hframe, hreq, hnames⟩ := markNameHot_frame q name
  rw [← heq] at h2
  refine h2.congr (fun i => ?_) rfl rfl rfl rfl rfl rfl rfl rfl
  rw [h.byName]
  simp only [Marked]
  have hc' : (q.markNameHot name).clauses = clauses := by rw [hframe]
  have hn' : (q.markNameHot name).hotNames = hotNames := by rw [hframe]
  rw [hc', hn']
  have hi := hreq i
  constructor
  · rintro ⟨c, hc, n, hnc, hnh⟩
    rw [hc, Option.map_some, eq_comm, Option.map_eq_some_iff] at hi
    obtain ⟨c', hc'', hr⟩ := hi
    rcases (hnames n).mp hnh with hnh | rfl
    · exact .inl ⟨c', hc'', n, hr ▸ hnc, hnh⟩
    · exact .inr ⟨c', hc'', hr ▸ hnc⟩
  · intro hor
    have hex : ∃ c', q.clauses[i]? = some c' ∧ ∃ n ∈ clauseNames P c'.requirement, n ∈ hotNames := by
      rcases hor with ⟨c', hc'', n, hnc, hnh⟩ | ⟨c', hc'', hnc⟩
      · exact ⟨c', hc'', n, hnc, (hnames n).mpr (.inl hnh)⟩
      · exact ⟨c', hc'', name, hnc, (hnames name).mpr (.inr rfl)⟩
    obtain ⟨c', hc'', n, hnc, hnh⟩ := hex
    rw [hc'', Option.map_some, Option.map_eq_some_iff] at hi
    obtain ⟨c, hc, hr⟩ := hi
    exact ⟨c, hc, n, hr ▸ hnc, hnh⟩

end Hot

/-! ## Enqueueing and dequeueing -/

section Entries

variable {P : DependencyProvider N S} {disjunctions : List Disjunction}
  {marked : TrackedClauseId → Prop} {q : DecideQueue N} {value : VariableId → Option Bool}

/-- What enqueueing clauses changes. -/
theorem enqueueClause_frame (value : VariableId → Option Bool) (q : DecideQueue N)
    (id : TrackedClauseId) :
    ∃ queue hotQueue, q.enqueueClause value id = { q with queue := queue, hotQueue := hotQueue } := by
  simp only [enqueueClause]
  split
  · exact ⟨_, _, rfl⟩
  · split
    · exact ⟨_, _, rfl⟩
    · exact ⟨_, _, rfl⟩

theorem Indexed.enqueueClause (h : Indexed P disjunctions marked q)
    (value : VariableId → Option Bool) (id : TrackedClauseId) :
    Indexed P disjunctions marked (q.enqueueClause value id) ∧
      ∀ e, e ∈ (q.enqueueClause value id).queue ↔ e ∈ q.queue ∨
        ∃ c, q.clauses[id]? = some c ∧ value c.parent = some true ∧ e = (c.position, id) := by
  simp only [DecideQueue.enqueueClause]
  cases hc : q.clauses[id]? with
  | none => exact ⟨h, fun e => by simp⟩
  | some clause =>
      dsimp only
      by_cases hp : value clause.parent = some true
      · rw [if_neg (by simpa using hp)]
        have hmem : ∀ e, e ∈ PositionMap.insert clause.position id q.queue ↔
            e = (clause.position, id) ∨ e ∈ q.queue := by
          intro e
          rw [h.sorted.mem_insert]
          refine ⟨fun he => he.imp_right And.left, fun he => ?_⟩
          rcases he with he | he
          · exact .inl he
          · by_cases hpos : e.1 = clause.position
            · exact .inl (h.queued_eq hc he hpos)
            · exact .inr ⟨he, hpos⟩
        refine ⟨{ h with
          queued := fun e he => ?_
          hotQueued := fun e => ?_
          sorted := (h.sorted.insert _ _).1
          hotSorted := ?_ }, fun e => ?_⟩
        · rcases (hmem e).mp he with rfl | he
          · exact ⟨clause, hc, rfl⟩
          · exact h.queued e he
        · dsimp only
          rw [hmem]
          cases hh : clause.hot with
          | true =>
              rw [if_pos rfl, h.hotSorted.mem_insert, h.hotQueued]
              constructor
              · rintro (rfl | ⟨⟨he, hhot⟩, -⟩)
                · exact ⟨.inl rfl, clause, hc, hh⟩
                · exact ⟨.inr he, hhot⟩
              · rintro ⟨rfl | he, hhot⟩
                · exact .inl rfl
                · by_cases hpos : e.1 = clause.position
                  · exact .inl (h.queued_eq hc he hpos)
                  · exact .inr ⟨⟨he, hhot⟩, hpos⟩
          | false =>
              rw [if_neg (by simp), h.hotQueued]
              constructor
              · rintro ⟨he, hhot⟩
                exact ⟨.inr he, hhot⟩
              · rintro ⟨rfl | he, c, hc', hhot⟩
                · rw [hc, Option.some.injEq] at hc'
                  rw [← hc', hh] at hhot
                  cases hhot
                · exact ⟨he, c, hc', hhot⟩
        · dsimp only
          split
          · exact (h.hotSorted.insert _ _).1
          · exact h.hotSorted
        · rw [hmem]
          simp [hp, or_comm]
      · rw [if_pos (by simpa using hp)]
        refine ⟨h, fun e => ?_⟩
        simp [hp]

theorem enqueueAll_frame (value : VariableId → Option Bool) (q : DecideQueue N)
    (ids : List TrackedClauseId) :
    ∃ queue hotQueue, q.enqueueAll value ids = { q with queue := queue, hotQueue := hotQueue } := by
  induction ids generalizing q with
  | nil => exact ⟨_, _, rfl⟩
  | cons id ids ih =>
      obtain ⟨queue, hotQueue, heq⟩ := enqueueClause_frame value q id
      obtain ⟨queue', hotQueue', heq'⟩ := ih (q.enqueueClause value id)
      refine ⟨queue', hotQueue', ?_⟩
      rw [enqueueAll, List.foldl_cons, ← enqueueAll, heq', heq]

/-- Enqueueing clauses adds the ones whose parent is true. -/
theorem Indexed.enqueueAll (h : Indexed P disjunctions marked q)
    (value : VariableId → Option Bool) (ids : List TrackedClauseId) :
    Indexed P disjunctions marked (q.enqueueAll value ids) ∧
      ∀ e, e ∈ (q.enqueueAll value ids).queue ↔ e ∈ q.queue ∨
        ∃ id ∈ ids, ∃ c, q.clauses[id]? = some c ∧ value c.parent = some true ∧
          e = (c.position, id) := by
  induction ids generalizing q with
  | nil => exact ⟨h, fun e => by simp [DecideQueue.enqueueAll]⟩
  | cons id ids ih =>
      obtain ⟨h1, hmem1⟩ := h.enqueueClause value id
      obtain ⟨queue, hotQueue, heq⟩ := enqueueClause_frame value q id
      have hc : (q.enqueueClause value id).clauses = q.clauses := by rw [heq]
      obtain ⟨h2, hmem2⟩ := ih h1
      refine ⟨h2, fun e => ?_⟩
      rw [DecideQueue.enqueueAll, List.foldl_cons, ← DecideQueue.enqueueAll, hmem2, hmem1, hc]
      simp only [List.mem_cons, exists_eq_or_imp, or_assoc]

/-- Dequeueing removes the entry at a position. -/
theorem Indexed.dequeue (h : Indexed P disjunctions marked q) (p : ClausePosition) :
    Indexed P disjunctions marked (q.dequeue p) :=
  { h with
    queued := fun e he => h.queued e (PositionMap.mem_remove.mp he).1
    hotQueued := fun e => by
      simp only [DecideQueue.dequeue]
      rw [PositionMap.mem_remove, PositionMap.mem_remove, h.hotQueued]
      exact and_right_comm
    sorted := h.sorted.remove p
    hotSorted := h.hotSorted.remove p }

end Entries

end DecideQueue

end Resolvo
