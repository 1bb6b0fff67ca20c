import Resolvo.Correctness.Tracker
import Resolvo.Correctness.QueueIndex

/-!
# `Correctness.QueueSync` — the queue follows the trail

Between two calls of `sync` the queue is correct for the assignment of the previous call, as far as that
assignment is still in place: on the part of the trail that was never popped. `sync` visits every variable
outside of that part, which wakes the clauses whose eligibility can have changed and forgets the cached
walks that can have changed, so afterwards the queue is correct for the current assignment.
-/

set_option linter.unusedSectionVars false

namespace Resolvo

open Sat

/-! ## The trail since the previous synchronisation -/

/-- The trail `t` grew from a trail with the assignment `synced` and the variables `mirror`; what is below
    the sync floor was never popped. -/
structure Tracks (synced : VariableId → Option Bool) (mirror : List VariableId)
    (t : DecisionTracker) : Prop where
  nodup : (t.stack.map Decision.var).Nodup
  value_iff : ∀ v b, t.map.value v = some b ↔ ∃ d ∈ t.stack, d.var = v ∧ d.value = b
  floor_le : t.syncFloor ≤ t.stack.length
  kept : (t.stack.take t.syncFloor).map Decision.var = mirror.take t.syncFloor
  values : ∀ d ∈ t.stack.take t.syncFloor, synced d.var = some d.value
  mirrored : ∀ v, synced v ≠ none → v ∈ mirror

namespace Tracks

variable {synced : VariableId → Option Bool} {mirror : List VariableId} {t t' : DecisionTracker}

theorem empty : Tracks (fun _ => none) [] {} where
  nodup := by simp
  value_iff := by simp [DecisionMap.value, DecisionMap.entry]
  floor_le := le_rfl
  kept := rfl
  values := by simp
  mirrored := by simp

/-- A variable of the kept part has its old value. -/
theorem value_kept (h : Tracks synced mirror t) {v : VariableId} (hv : v ∈ mirror.take t.syncFloor) :
    t.map.value v = synced v := by
  rw [← h.kept] at hv
  obtain ⟨d, hd, rfl⟩ := List.mem_map.mp hv
  rw [h.values d hd]
  exact (h.value_iff d.var d.value).mpr ⟨d, List.mem_of_mem_take hd, rfl, rfl⟩

/-- A variable that `sync` does not visit has its old value. -/
theorem value_untouched (h : Tracks synced mirror t) {v : VariableId}
    (hm : v ∉ mirror.drop t.syncFloor) (hs : v ∉ (t.stack.drop t.syncFloor).map Decision.var) :
    t.map.value v = synced v := by
  by_cases hv : v ∈ mirror.take t.syncFloor
  · exact h.value_kept hv
  have hnew : t.map.value v = none := by
    rw [Option.eq_none_iff_forall_ne_some]
    intro b hb
    obtain ⟨d, hd, rfl, -⟩ := (h.value_iff v b).mp hb
    rw [← List.take_append_drop t.syncFloor t.stack, List.mem_append] at hd
    rcases hd with hd | hd
    · exact hv (h.kept ▸ List.mem_map_of_mem hd)
    · exact hs (List.mem_map_of_mem hd)
  have hold : synced v = none := by
    by_contra hne
    have := h.mirrored v hne
    rw [← List.take_append_drop t.syncFloor mirror, List.mem_append] at this
    exact this.elim hv hm
  rw [hnew, hold]

/-- A variable that is assigned and below the floor is in the mirror. -/
theorem mem_kept (h : Tracks synced mirror t) {v : VariableId} {b : Bool}
    (hb : t.map.value v = some b) (hs : v ∉ (t.stack.drop t.syncFloor).map Decision.var) :
    v ∈ mirror.take t.syncFloor := by
  obtain ⟨d, hd, rfl, -⟩ := (h.value_iff v b).mp hb
  rw [← List.take_append_drop t.syncFloor t.stack, List.mem_append] at hd
  rcases hd with hd | hd
  · exact h.kept ▸ List.mem_map_of_mem hd
  · exact absurd (List.mem_map_of_mem hd) hs

theorem assigned (h : Tracks synced mirror t) : t.Assigned := ⟨h.nodup, h.value_iff⟩

/-- Assigning a variable keeps the part below the floor. -/
theorem tryAddDecision (h : Tracks synced mirror t) {d : Decision} {level : Nat} {b : Bool}
    (ha : t.tryAddDecision d level = some (b, t')) :
    Tracks synced mirror t' ∧ t'.syncFloor = t.syncFloor := by
  rcases DecisionTracker.tryAddDecision_cases ha with ⟨-, hnone, rfl⟩ | ⟨-, -, rfl⟩
  · have hpush := h.assigned.push hnone level
    have htake : (t.push d level).stack.take t.syncFloor = t.stack.take t.syncFloor :=
      List.take_append_of_le_length h.floor_le
    refine ⟨⟨hpush.nodup, hpush.value_iff, ?_, ?_, ?_, h.mirrored⟩, rfl⟩
    · rw [DecisionTracker.push_syncFloor, DecisionTracker.push_stack, List.length_append]
      exact Nat.le_add_right_of_le h.floor_le
    · rw [DecisionTracker.push_syncFloor, htake]
      exact h.kept
    · rw [DecisionTracker.push_syncFloor, htake]
      exact h.values
  · exact ⟨h, rfl⟩

/-- Popping an entry lowers the floor to the new end of the trail. -/
theorem undoLast (h : Tracks synced mirror t) {d : Decision} {level : Nat}
    (hu : t.undoLast = some (d, level, t')) :
    Tracks synced mirror t' ∧ t'.syncFloor ≤ t.syncFloor := by
  obtain ⟨hlast, top, -, -, rfl⟩ := DecisionTracker.undoLast_cases hu
  have hstack : t.stack = t.stack.dropLast ++ [d] := (List.dropLast_append_getLast? d hlast).symm
  have hpop := h.assigned.pop hlast t.stack.dropLast.length (min t.syncFloor t.stack.dropLast.length)
  have hle : min t.syncFloor t.stack.dropLast.length ≤ t.syncFloor := Nat.min_le_left _ _
  -- below the new floor the trail is what it was
  have htake : t.stack.dropLast.take (min t.syncFloor t.stack.dropLast.length) =
      (t.stack.take t.syncFloor).take (min t.syncFloor t.stack.dropLast.length) := by
    have hmin : min t.syncFloor t.stack.dropLast.length ≤ t.stack.dropLast.length :=
      Nat.min_le_right _ _
    generalize min t.syncFloor t.stack.dropLast.length = n at hle hmin
    rw [List.take_take, Nat.min_eq_left hle]
    conv_rhs => rw [hstack]
    rw [List.take_append_of_le_length hmin]
  refine ⟨⟨hpop.nodup, hpop.value_iff, Nat.min_le_right _ _, ?_, fun d hd => ?_, h.mirrored⟩, hle⟩
  · dsimp only
    rw [htake, List.map_take, h.kept, List.take_take, Nat.min_eq_left hle]
  · dsimp only at hd
    rw [htake] at hd
    exact h.values d (List.mem_of_mem_take hd)

theorem undoUntilLoop {level : Nat} (fuel : Nat) (h : Tracks synced mirror t)
    (hu : DecisionTracker.undoUntilLoop level fuel t = some t') :
    Tracks synced mirror t' ∧ t'.syncFloor ≤ t.syncFloor := by
  induction fuel generalizing t with
  | zero =>
      obtain rfl : t = t' := by simpa [DecisionTracker.undoUntilLoop] using hu
      exact ⟨h, le_rfl⟩
  | succ fuel ih =>
      simp only [DecisionTracker.undoUntilLoop] at hu
      split at hu
      · exact ⟨Option.some.inj hu ▸ h, (Option.some.inj hu) ▸ le_rfl⟩
      · split at hu
        · exact ⟨Option.some.inj hu ▸ h, (Option.some.inj hu) ▸ le_rfl⟩
        · split at hu
          · cases hu
          next d level' t₁ hundo =>
          obtain ⟨h1, hle1⟩ := h.undoLast hundo
          obtain ⟨h2, hle2⟩ := ih h1 hu
          exact ⟨h2, hle2.trans hle1⟩

theorem clear (h : Tracks synced mirror t) : Tracks synced mirror t.clear where
  nodup := by simp [DecisionTracker.clear]
  value_iff := by simp [DecisionTracker.clear, DecisionMap.value, DecisionMap.entry]
  floor_le := le_rfl
  kept := by simp [DecisionTracker.clear]
  values := by simp [DecisionTracker.clear]
  mirrored := h.mirrored

theorem undoUntil (h : Tracks synced mirror t) {level : Nat} (hu : t.undoUntil level = some t') :
    Tracks synced mirror t' ∧ t'.syncFloor ≤ t.syncFloor := by
  simp only [DecisionTracker.undoUntil] at hu
  split at hu
  · obtain rfl : t.clear = t' := by simpa using hu
    exact ⟨h.clear, Nat.zero_le _⟩
  · exact h.undoUntilLoop _ hu

/-- After a synchronisation the whole trail is below the floor. -/
theorem takeSyncFloor (h : Tracks synced mirror t) :
    Tracks t.map.value (mirror.take t.syncFloor ++ (t.stack.drop t.syncFloor).map Decision.var)
      t.takeSyncFloor.2 := by
  have hmirror : mirror.take t.syncFloor ++ (t.stack.drop t.syncFloor).map Decision.var =
      t.stack.map Decision.var := by
    rw [← h.kept, ← List.map_append, List.take_append_drop]
  rw [hmirror]
  refine ⟨h.nodup, h.value_iff, le_rfl, ?_, fun d hd => ?_, fun v hv => ?_⟩
  · simp [DecisionTracker.takeSyncFloor]
  · exact (h.value_iff d.var d.value).mpr ⟨d, List.mem_of_mem_take hd, rfl, rfl⟩
  · obtain ⟨b, hb⟩ := Option.ne_none_iff_exists'.mp hv
    obtain ⟨d, hd, rfl, -⟩ := (h.value_iff v b).mp hb
    exact List.mem_map_of_mem hd

end Tracks

namespace DecideQueue

variable {N S : Type} [DecidableEq N] [DecidableEq S]

/-! ## The cache -/

/-- The candidates of a requirement. -/
def candidatesOf (sortedCandidates : IndexMap Requirement (List (List VariableId))) (r : Requirement) :
    List VariableId := (sortedCandidates.getD r []).flatten

/-- The entry of a requirement in the cache. -/
def entryOf (q : DecideQueue N) (r : Requirement) : RequirementEntry := q.requirementStates.getD r {}

/-- The cached walks are the walks under an assignment. `visited` are the variables that were routed since:
    no candidate of a cached frontier is among them, and a satisfying candidate is only if it is still
    true under the assignment `value`. -/
structure Cached (P : DependencyProvider N S)
    (sortedCandidates : IndexMap Requirement (List (List VariableId)))
    (synced value : VariableId → Option Bool) (visited : List VariableId) (q : DecideQueue N) :
    Prop where
  listed : ∀ r, (q.entryOf r).occurrencesRegistered = true →
    ∀ c ∈ candidatesOf sortedCandidates r, r ∈ q.requirementsByCandidate.getD c []
  registered : ∀ r, (q.entryOf r).state ≠ .dirty → (q.entryOf r).occurrencesRegistered = true
  satisfied : ∀ r by_, (q.entryOf r).state = .satisfied by_ →
    by_ ∈ candidatesOf sortedCandidates r ∧ synced by_ = some true ∧
      (by_ ∈ visited → value by_ = some true)
  frontier : ∀ r candidate vs count, (q.entryOf r).state = .frontier candidate vs count →
    walk synced (walkOrder (r.versionSets P) (sortedCandidates.getD r [])) none =
        some (.frontier candidate vs count) ∧
      ∀ c ∈ candidatesOf sortedCandidates r, c ∉ visited

/-- What routing a candidate does to the entry of a requirement. -/
def refresh (value : VariableId → Option Bool) (entry : RequirementEntry) : RequirementEntry :=
  match entry.state with
  | .dirty => entry
  | .frontier .. => { entry with state := .dirty }
  | .satisfied by_ => if value by_ = some true then entry else { entry with state := .dirty }

/-! ## Eligibility -/

/-- The parent is true and the condition holds. -/
def Awake (value : VariableId → Option Bool) (disjunctions : List Disjunction) (c : TrackedClause) :
    Prop :=
  value c.parent = some true ∧
    ∀ l ∈ conditionLiterals disjunctions c.condition, l.eval value = some false

/-- The variables that decide whether a clause is awake. -/
def wakers (disjunctions : List Disjunction) (c : TrackedClause) : List VariableId :=
  c.parent :: (conditionLiterals disjunctions c.condition).map Lit.var

/-- The clauses that are awake are queued, unless their requirement is known to be satisfied. `due` are the
    clauses this is known for. -/
def Covered (value : VariableId → Option Bool) (disjunctions : List Disjunction)
    (due : TrackedClause → Prop) (q : DecideQueue N) : Prop :=
  ∀ (id : TrackedClauseId) c, q.clauses[id]? = some c → Awake value disjunctions c → due c →
    (c.position, id) ∈ q.queue ∨ ∃ by_, (q.entryOf c.requirement).state = .satisfied by_

theorem Awake.congr {value value' : VariableId → Option Bool} {disjunctions : List Disjunction}
    {c : TrackedClause} (h : Awake value disjunctions c)
    (hv : ∀ v ∈ wakers disjunctions c, value' v = value v) : Awake value' disjunctions c := by
  refine ⟨by rw [hv _ List.mem_cons_self]; exact h.1, fun l hl => ?_⟩
  have := hv l.var (List.mem_cons_of_mem _ (List.mem_map_of_mem hl))
  rw [Lit.eval, this]
  exact h.2 l hl

/-- The variables of a clause that is awake are assigned. -/
theorem Awake.assigned {value : VariableId → Option Bool} {disjunctions : List Disjunction}
    {c : TrackedClause} (h : Awake value disjunctions c) {v : VariableId}
    (hv : v ∈ wakers disjunctions c) : ∃ b, value v = some b := by
  rcases List.mem_cons.mp hv with rfl | hv
  · exact ⟨true, h.1⟩
  · obtain ⟨l, hl, rfl⟩ := List.mem_map.mp hv
    have := h.2 l hl
    rw [Lit.eval, Option.map_eq_some_iff] at this
    obtain ⟨b, hb, -⟩ := this
    exact ⟨b, hb⟩

/-! ## Routing one variable -/

section Route

variable {P : DependencyProvider N S} {disjunctions : List Disjunction}
  {sortedCandidates : IndexMap Requirement (List (List VariableId))}
  {marked : TrackedClauseId → Prop} {synced value : VariableId → Option Bool}
  {visited : List VariableId} {due : TrackedClause → Prop} {q : DecideQueue N}

theorem entryOf_setState (q : DecideQueue N) (r r' : Requirement) (state : RequirementState) :
    (q.setState r state).entryOf r' =
      if r = r' then { q.entryOf r with state } else q.entryOf r' := by
  rw [entryOf, setState, IndexMap.getD_insert]
  rfl

theorem enqueueAll_entryOf (value : VariableId → Option Bool) (q : DecideQueue N)
    (ids : List TrackedClauseId) (r : Requirement) :
    (q.enqueueAll value ids).entryOf r = q.entryOf r := by
  obtain ⟨queue, hotQueue, heq⟩ := enqueueAll_frame value q ids
  rw [heq]
  rfl

/-- Enqueueing clauses keeps what is covered, and covers the clauses enqueued. -/
theorem Covered.enqueueAll (h : Indexed P disjunctions marked q)
    (hc : Covered value disjunctions due q) (ids : List TrackedClauseId) :
    Covered value disjunctions
      (fun c => due c ∨ ∃ id ∈ ids, q.clauses[id]? = some c) (q.enqueueAll value ids) := by
  obtain ⟨-, hmem⟩ := h.enqueueAll value ids
  obtain ⟨queue, hotQueue, heq⟩ := enqueueAll_frame value q ids
  have hclauses : (q.enqueueAll value ids).clauses = q.clauses := by rw [heq]
  intro id c hid hawake hdue
  rw [hclauses] at hid
  rw [hmem, enqueueAll_entryOf]
  rcases hdue with hdue | ⟨id', hid', hc'⟩
  · exact (hc id c hid hawake hdue).imp_left .inl
  · obtain rfl := h.position_inj hid hc' rfl
    exact .inl (.inr ⟨id, hid', c, hid, hawake.1, rfl⟩)

/-- Routing a requirement changes only its entry and the queues. -/
theorem routeRequirement_frame (value : VariableId → Option Bool) (q : DecideQueue N)
    (r : Requirement) :
    (∃ queue hotQueue states, q.routeRequirement value r =
      { q with queue := queue, hotQueue := hotQueue, requirementStates := states }) ∧
    ∀ r', (q.routeRequirement value r).entryOf r' =
      if r = r' then refresh value (q.entryOf r) else q.entryOf r' := by
  simp only [routeRequirement, refresh, entryOf]
  cases hs : (q.requirementStates.getD r {}).state with
  | dirty => exact ⟨⟨_, _, _, rfl⟩, fun r' => by split <;> simp_all⟩
  | frontier candidate vs count => exact ⟨⟨_, _, _, rfl⟩, fun r' => entryOf_setState q r r' _⟩
  | satisfied by_ =>
      dsimp only
      by_cases hv : value by_ = some true
      · simp only [if_pos hv]
        exact ⟨⟨_, _, _, rfl⟩, fun r' => by split <;> simp_all⟩
      · simp only [if_neg hv]
        obtain ⟨queue, hotQueue, heq⟩ := enqueueAll_frame value (q.setState r .dirty)
          (q.clausesByRequirement.getD r [])
        refine ⟨⟨queue, hotQueue, _, heq⟩, fun r' => ?_⟩
        have := enqueueAll_entryOf value (q.setState r .dirty)
          (q.clausesByRequirement.getD r []) r'
        rw [entryOf] at this
        rw [this, entryOf_setState]
        rfl

/-- Routing a requirement keeps the index and what is covered. -/
theorem Indexed.routeRequirement (h : Indexed P disjunctions marked q)
    (value : VariableId → Option Bool) (due : TrackedClause → Prop) (r : Requirement) :
    Indexed P disjunctions marked (q.routeRequirement value r) ∧
      (Covered value disjunctions due q → Covered value disjunctions due (q.routeRequirement value r)) := by
  simp only [DecideQueue.routeRequirement]
  cases hs : (q.requirementStates.getD r {}).state with
  | dirty => exact ⟨h, fun hc => hc⟩
  | frontier candidate vs count =>
      refine ⟨h.congr (fun _ => Iff.rfl) rfl rfl rfl rfl rfl rfl rfl rfl, ?_⟩
      intro hc id c hid hawake hdue
      refine (hc id c hid hawake hdue).imp_right fun h => h.imp fun by_ hb => ?_
      -- a requirement with a frontier does not cover a clause
      rw [entryOf_setState]
      by_cases hr : r = c.requirement
      · subst hr
        rw [entryOf, hs] at hb
        cases hb
      · rw [if_neg hr]
        exact hb
  | satisfied by_ =>
      dsimp only
      by_cases hv : value by_ = some true
      · rw [if_pos hv]
        exact ⟨h, fun hc => hc⟩
      · rw [if_neg hv]
        have h1 : Indexed P disjunctions marked (q.setState r .dirty) :=
          h.congr (fun _ => Iff.rfl) rfl rfl rfl rfl rfl rfl rfl rfl
        refine ⟨(h1.enqueueAll _ _).1, fun hc => ?_⟩
        have hrest : Covered value disjunctions (fun c => due c ∧ c.requirement ≠ r)
            (q.setState r .dirty) := by
          intro id c hid hawake hdue
          refine (hc id c hid hawake hdue.1).imp_right fun h => h.imp fun by' hb => ?_
          rw [entryOf_setState, if_neg (Ne.symm hdue.2)]
          exact hb
        intro id c hid hawake hdue
        refine hrest.enqueueAll h1 _ id c hid hawake ?_
        by_cases hr : c.requirement = r
        · obtain ⟨queue, hotQueue, heq⟩ := enqueueAll_frame value (q.setState r .dirty)
            (q.clausesByRequirement.getD r [])
          rw [heq] at hid
          exact .inr ⟨id, hr ▸ h.byRequirement id c hid, hid⟩
        · exact .inl ⟨hdue, hr⟩

theorem refresh_refresh (entry : RequirementEntry) :
    refresh value (refresh value entry) = refresh value entry := by
  obtain ⟨state, registered⟩ := entry
  cases state with
  | dirty => rfl
  | frontier candidate vs count => rfl
  | satisfied by_ =>
      simp only [refresh]
      by_cases hv : value by_ = some true
      · simp [hv]
      · simp [hv]

theorem routeRequirements_frame (value : VariableId → Option Bool) (q : DecideQueue N)
    (rs : List Requirement) :
    (∃ queue hotQueue states, rs.foldl (routeRequirement value) q =
      { q with queue := queue, hotQueue := hotQueue, requirementStates := states }) ∧
    ∀ r, (rs.foldl (routeRequirement value) q).entryOf r =
      if r ∈ rs then refresh value (q.entryOf r) else q.entryOf r := by
  induction rs generalizing q with
  | nil => exact ⟨⟨_, _, _, rfl⟩, fun r => by simp⟩
  | cons r₀ rs ih =>
      obtain ⟨⟨queue, hotQueue, states, heq⟩, hentry⟩ := routeRequirement_frame value q r₀
      obtain ⟨⟨queue', hotQueue', states', heq'⟩, hentry'⟩ := ih (q.routeRequirement value r₀)
      refine ⟨⟨queue', hotQueue', states', by rw [List.foldl_cons, heq', heq]⟩, fun r => ?_⟩
      rw [List.foldl_cons, hentry', hentry]
      by_cases hr : r₀ = r
      · subst hr
        simp [refresh_refresh]
      · simp [hr, Ne.symm hr]

theorem Indexed.routeRequirements (h : Indexed P disjunctions marked q)
    (value : VariableId → Option Bool) (due : TrackedClause → Prop) (rs : List Requirement) :
    Indexed P disjunctions marked (rs.foldl (DecideQueue.routeRequirement value) q) ∧
      (Covered value disjunctions due q →
        Covered value disjunctions due (rs.foldl (DecideQueue.routeRequirement value) q)) := by
  induction rs generalizing q with
  | nil => exact ⟨h, fun hc => hc⟩
  | cons r rs ih =>
      obtain ⟨h1, hc1⟩ := h.routeRequirement value due r
      obtain ⟨h2, hc2⟩ := ih h1
      exact ⟨h2, fun hc => hc2 (hc1 hc)⟩

/-- The first part of routing a variable: wake the clauses of a parent that is true. -/
def wakeParent (value : VariableId → Option Bool) (q : DecideQueue N) (v : VariableId) : DecideQueue N :=
  if value v = some true then
    match q.parentPositions.get? v with
    | some pos => q.enqueueAll value ((q.clausesByParent[pos]?).getD [])
    | none => q
  else q

theorem routeTouched_eq (q : DecideQueue N) (v : VariableId) :
    q.routeTouched value v =
      ((((q.wakeParent value v).requirementsByCandidate.getD v []).foldl (routeRequirement value)
          (q.wakeParent value v)).enqueueAll value
        ((((q.wakeParent value v).requirementsByCandidate.getD v []).foldl (routeRequirement value)
          (q.wakeParent value v)).clausesByConditionVariable.getD v [])) := rfl

theorem wakeParent_frame (value : VariableId → Option Bool) (q : DecideQueue N) (v : VariableId) :
    ∃ queue hotQueue, q.wakeParent value v = { q with queue := queue, hotQueue := hotQueue } := by
  simp only [wakeParent]
  split
  · split
    · exact enqueueAll_frame value q _
    · exact ⟨_, _, rfl⟩
  · exact ⟨_, _, rfl⟩

theorem Indexed.wakeParent (h : Indexed P disjunctions marked q)
    (hc : Covered value disjunctions due q) (v : VariableId) :
    Indexed P disjunctions marked (q.wakeParent value v) ∧
      Covered value disjunctions (fun c => due c ∨ c.parent = v) (q.wakeParent value v) := by
  simp only [DecideQueue.wakeParent]
  by_cases hv : value v = some true
  · rw [if_pos hv]
    cases hp : q.parentPositions.get? v with
    | none =>
        refine ⟨h, fun id c hid hawake hdue => hc id c hid hawake (hdue.resolve_right ?_)⟩
        rintro rfl
        rw [(h.position id c hid).1] at hp
        cases hp
    | some pos =>
        dsimp only
        refine ⟨(h.enqueueAll _ _).1, fun id c hid hawake hdue => ?_⟩
        obtain ⟨queue, hotQueue, heq⟩ := enqueueAll_frame value q ((q.clausesByParent[pos]?).getD [])
        have hid' : q.clauses[id]? = some c := by
          rw [heq] at hid
          exact hid
        refine hc.enqueueAll h _ id c hid hawake (hdue.imp_right fun hpar => ⟨id, ?_, hid'⟩)
        obtain ⟨hpos, ids, hids, hmem⟩ := h.position id c hid'
        rw [hpar, hp, Option.some.injEq] at hpos
        rw [hpos, hids]
        exact List.mem_of_getElem? hmem
  · rw [if_neg hv]
    refine ⟨h, fun id c hid hawake hdue => hc id c hid hawake (hdue.resolve_right ?_)⟩
    rintro rfl
    exact hv hawake.1

/-- What routing a variable changes. -/
theorem routeTouched_frame (value : VariableId → Option Bool) (q : DecideQueue N) (v : VariableId) :
    (∃ queue hotQueue states, q.routeTouched value v =
      { q with queue := queue, hotQueue := hotQueue, requirementStates := states }) ∧
    ∀ r, (q.routeTouched value v).entryOf r =
      if r ∈ q.requirementsByCandidate.getD v [] then refresh value (q.entryOf r) else q.entryOf r := by
  obtain ⟨queue, hotQueue, heq⟩ := wakeParent_frame value q v
  obtain ⟨⟨queue', hotQueue', states', heq'⟩, hentry⟩ := routeRequirements_frame value
    (q.wakeParent value v) ((q.wakeParent value v).requirementsByCandidate.getD v [])
  rw [routeTouched_eq]
  refine ⟨?_, fun r => ?_⟩
  · obtain ⟨queue'', hotQueue'', heq''⟩ := enqueueAll_frame value
      (((q.wakeParent value v).requirementsByCandidate.getD v []).foldl (routeRequirement value)
        (q.wakeParent value v))
      ((((q.wakeParent value v).requirementsByCandidate.getD v []).foldl (routeRequirement value)
        (q.wakeParent value v)).clausesByConditionVariable.getD v [])
    refine ⟨queue'', hotQueue'', states', ?_⟩
    rw [heq'']
    generalize ((q.wakeParent value v).requirementsByCandidate.getD v []).foldl
      (routeRequirement value) (q.wakeParent value v) = q₁ at heq'
    rw [heq', heq]
  · rw [enqueueAll_entryOf, hentry, heq]
    rfl

/-- Routing a variable covers the clauses that wait for it and forgets the walks it took part in. -/
theorem Indexed.routeTouched (h : Indexed P disjunctions marked q)
    (hcached : Cached P sortedCandidates synced value visited q)
    (hcov : Covered value disjunctions due q) (v : VariableId) :
    Indexed P disjunctions marked (q.routeTouched value v) ∧
      Cached P sortedCandidates synced value (v :: visited) (q.routeTouched value v) ∧
      Covered value disjunctions (fun c => due c ∨ v ∈ wakers disjunctions c)
        (q.routeTouched value v) := by
  obtain ⟨⟨queue, hotQueue, states, heq⟩, hentry⟩ := routeTouched_frame value q v
  have hby : (q.routeTouched value v).requirementsByCandidate = q.requirementsByCandidate := by
    rw [heq]
  have hclauses : (q.routeTouched value v).clauses = q.clauses := by rw [heq]
  obtain ⟨h1, hc1⟩ := h.wakeParent hcov v
  obtain ⟨h2, hc2⟩ := h1.routeRequirements value (fun c => due c ∨ c.parent = v)
    ((q.wakeParent value v).requirementsByCandidate.getD v [])
  refine ⟨(h2.enqueueAll _ _).1, ⟨?_, ?_, ?_, ?_⟩, ?_⟩
  · intro r hr c hc
    rw [hby]
    refine hcached.listed r ?_ c hc
    rw [hentry] at hr
    split at hr
    · simp only [refresh] at hr
      split at hr
      · exact hr
      · exact hr
      · split at hr <;> exact hr
    · exact hr
  · intro r hr
    rw [hentry] at hr ⊢
    split at hr
    · rename_i hmem
      rw [if_pos hmem]
      simp only [refresh] at hr ⊢
      split at hr
      · rename_i hd
        exact absurd hd hr
      · exact absurd rfl hr
      · rename_i by_ hs
        split at hr
        · rename_i hv
          simp only [hv, if_true]
          exact hcached.registered r hr
        · exact absurd rfl hr
    · rename_i hmem
      rw [if_neg hmem]
      exact hcached.registered r hr
  · intro r by_ hs
    rw [hentry] at hs
    have hold : (q.entryOf r).state = .satisfied by_ ∧
        (r ∈ q.requirementsByCandidate.getD v [] → value by_ = some true) := by
      split at hs
      · simp only [refresh] at hs
        split at hs
        · rename_i hd
          rw [hd] at hs
          cases hs
        · cases hs
        · rename_i by' hb
          split at hs
          · rename_i hv
            rw [hb] at hs
            cases hs
            exact ⟨hb, fun _ => hv⟩
          · cases hs
      · rename_i hmem
        exact ⟨hs, fun h => absurd h hmem⟩
    obtain ⟨hcand, hsyn, hvis⟩ := hcached.satisfied r by_ hold.1
    refine ⟨hcand, hsyn, fun hmem => ?_⟩
    rcases List.mem_cons.mp hmem with rfl | hmem
    · exact hold.2 (hcached.listed r (hcached.registered r (by rw [hold.1]; simp)) _ hcand)
    · exact hvis hmem
  · intro r candidate vs count hs
    rw [hentry] at hs
    have hold : (q.entryOf r).state = .frontier candidate vs count ∧
        r ∉ q.requirementsByCandidate.getD v [] := by
      split at hs
      · simp only [refresh] at hs
        split at hs
        · rename_i hd
          rw [hd] at hs
          cases hs
        · cases hs
        · rename_i by' hb
          split at hs
          · rw [hb] at hs
            cases hs
          · cases hs
      · rename_i hmem
        exact ⟨hs, hmem⟩
    obtain ⟨hwalk, hvis⟩ := hcached.frontier r candidate vs count hold.1
    refine ⟨hwalk, fun c hc hmem => ?_⟩
    rcases List.mem_cons.mp hmem with rfl | hmem
    · exact hold.2 (hcached.listed r (hcached.registered r (by rw [hold.1]; simp)) _ hc)
    · exact hvis c hc hmem
  · rw [routeTouched_eq]
    intro id c hid hawake hdue
    have hid' : q.clauses[id]? = some c := by
      rw [← hclauses, routeTouched_eq]
      exact hid
    refine Covered.enqueueAll h2 (hc2 hc1) _ id c hid hawake ?_
    rcases hdue with hdue | hv
    · exact .inl (.inl hdue)
    · rcases List.mem_cons.mp hv with rfl | hv
      · exact .inl (.inr rfl)
      · obtain ⟨l, hl, rfl⟩ := List.mem_map.mp hv
        obtain ⟨⟨queue', hotQueue', states', heq'⟩, -⟩ := routeRequirements_frame value
          (q.wakeParent value l.var) ((q.wakeParent value l.var).requirementsByCandidate.getD l.var [])
        obtain ⟨queue'', hotQueue'', heq''⟩ := wakeParent_frame value q l.var
        refine .inr ⟨id, ?_, ?_⟩
        · rw [heq', heq'']
          exact h.byCondition id c hid' l hl
        · rw [heq', heq'']
          exact hid'

end Route

/-! ## Walking the candidates -/

/-- What a walk that found no true candidate reports: the first undecided candidate with its version set,
    and the number of undecided candidates of that version set. -/
def IsFrontier (value : VariableId → Option Bool) (order : List (VersionSetId × VariableId))
    (candidate : VariableId) (vs : VersionSetId) (count : Nat) : Prop :=
  (∀ e ∈ order, value e.2 ≠ some true) ∧
    (∃ before after, order = before ++ (vs, candidate) :: after ∧
      (∀ e ∈ before, value e.2 = some false)) ∧
    value candidate = none ∧
    count = (order.filter fun e => e.1 = vs ∧ value e.2 = none).length

theorem walk_congr {value value' : VariableId → Option Bool} {order : List (VersionSetId × VariableId)}
    (h : ∀ e ∈ order, value' e.2 = value e.2) (first : Option (VariableId × VersionSetId × Nat)) :
    walk value' order first = walk value order first := by
  induction order generalizing first with
  | nil => cases first <;> rfl
  | cons e order ih =>
      obtain ⟨vs, candidate⟩ := e
      have hrest := ih fun e he => h e (List.mem_cons_of_mem _ he)
      have hc : value' candidate = value candidate := h (vs, candidate) List.mem_cons_self
      simp only [walk, hc, hrest]

/-- A walk stops at the first true candidate. -/
theorem walk_true {value : VariableId → Option Bool} {order : List (VersionSetId × VariableId)}
    (h : ∃ e ∈ order, value e.2 = some true) (first : Option (VariableId × VersionSetId × Nat)) :
    ∃ e ∈ order, value e.2 = some true ∧ walk value order first = some (.satisfied e.2) := by
  induction order generalizing first with
  | nil => simp at h
  | cons e order ih =>
      obtain ⟨vs, candidate⟩ := e
      have hrest : value candidate ≠ some true → ∃ e ∈ order, value e.2 = some true := by
        intro hne
        obtain ⟨e, he, hv⟩ := h
        rcases List.mem_cons.mp he with rfl | he
        · exact absurd hv hne
        · exact ⟨e, he, hv⟩
      simp only [walk]
      cases hv : value candidate with
      | none =>
          cases first with
          | none =>
              obtain ⟨e, he, hev, hw⟩ := ih (hrest (by simp [hv])) _
              exact ⟨e, List.mem_cons_of_mem _ he, hev, hw⟩
          | some f =>
              obtain ⟨e, he, hev, hw⟩ := ih (hrest (by simp [hv])) _
              exact ⟨e, List.mem_cons_of_mem _ he, hev, hw⟩
      | some b =>
          cases b with
          | true => exact ⟨(vs, candidate), List.mem_cons_self, hv, rfl⟩
          | false =>
              obtain ⟨e, he, hev, hw⟩ := ih (hrest (by simp [hv])) first
              exact ⟨e, List.mem_cons_of_mem _ he, hev, hw⟩

/-- After the first undecided candidate a walk only counts. -/
theorem walk_some {value : VariableId → Option Bool} {order : List (VersionSetId × VariableId)}
    (h : ∀ e ∈ order, value e.2 ≠ some true) (candidate : VariableId) (vs : VersionSetId) (count : Nat) :
    walk value order (some (candidate, vs, count)) = some (.frontier candidate vs
      (count + (order.filter fun e => e.1 = vs ∧ value e.2 = none).length)) := by
  induction order generalizing count with
  | nil => simp [walk]
  | cons e order ih =>
      obtain ⟨vs', c'⟩ := e
      have hrest := ih fun e he => h e (List.mem_cons_of_mem _ he)
      simp only [walk]
      cases hv : value c' with
      | none =>
          dsimp only
          rw [hrest]
          by_cases hvs : vs = vs'
          · subst hvs
            simp [hv]
            omega
          · simp [hvs, Ne.symm hvs]
      | some b =>
          cases b with
          | true => exact absurd hv (h (vs', c') List.mem_cons_self)
          | false =>
              dsimp only
              rw [hrest]
              simp [hv]

/-- A walk without a true candidate finds the frontier, if a candidate is undecided. -/
theorem walk_none {value : VariableId → Option Bool} {order : List (VersionSetId × VariableId)}
    (h : ∀ e ∈ order, value e.2 ≠ some true) :
    (walk value order none = none ∧ ∀ e ∈ order, value e.2 = some false) ∨
      ∃ candidate vs count, walk value order none = some (.frontier candidate vs count) ∧
        IsFrontier value order candidate vs count := by
  induction order with
  | nil => exact .inl ⟨rfl, by simp⟩
  | cons e order ih =>
      obtain ⟨vs', c'⟩ := e
      have htail : ∀ e ∈ order, value e.2 ≠ some true := fun e he => h e (List.mem_cons_of_mem _ he)
      simp only [walk]
      cases hv : value c' with
      | none =>
          refine .inr ⟨c', vs', _, walk_some htail c' vs' 1, h, ⟨[], order, rfl, by simp⟩, hv, ?_⟩
          simp [hv]
          omega
      | some b =>
          cases b with
          | true => exact absurd hv (h (vs', c') List.mem_cons_self)
          | false =>
              dsimp only
              rcases ih htail with ⟨hw, hall⟩ | ⟨candidate, vs, count, hw, -, ⟨before, after, ho, hb⟩, hc, hn⟩
              · refine .inl ⟨hw, fun e he => ?_⟩
                rcases List.mem_cons.mp he with rfl | he
                · exact hv
                · exact hall e he
              · refine .inr ⟨candidate, vs, count, hw, h, ⟨(vs', c') :: before, after, by simp [ho], ?_⟩,
                  hc, by simp [hv, hn]⟩
                intro e he
                rcases List.mem_cons.mp he with rfl | he
                · exact hv
                · exact hb e he

theorem mem_walkOrder {versionSets : List VersionSetId} {candidates : List (List VariableId)}
    {e : VersionSetId × VariableId} (h : e ∈ walkOrder versionSets candidates) :
    e.1 ∈ versionSets ∧ e.2 ∈ candidates.flatten := by
  simp only [walkOrder, List.mem_flatMap, List.mem_map] at h
  obtain ⟨⟨vs, cs⟩, hmem, c, hc, rfl⟩ := h
  exact ⟨(List.of_mem_zip hmem).1, List.mem_flatten.mpr ⟨cs, (List.of_mem_zip hmem).2, hc⟩⟩

/-- There is one list of candidates for each version set. -/
def Aligned (P : DependencyProvider N S)
    (sortedCandidates : IndexMap Requirement (List (List VariableId))) (r : Requirement) : Prop :=
  (sortedCandidates.getD r []).length = (r.versionSets P).length

theorem walkOrder_of_mem {versionSets : List VersionSetId} {candidates : List (List VariableId)}
    (hlen : candidates.length = versionSets.length) {c : VariableId} (hc : c ∈ candidates.flatten) :
    ∃ vs, (vs, c) ∈ walkOrder versionSets candidates := by
  obtain ⟨cs, hcs, hc⟩ := List.mem_flatten.mp hc
  obtain ⟨i, hi, rfl⟩ := List.mem_iff_getElem.mp hcs
  have hi' : i < versionSets.length := hlen ▸ hi
  refine ⟨versionSets[i], ?_⟩
  simp only [walkOrder, List.mem_flatMap, List.mem_map]
  refine ⟨(versionSets[i], candidates[i]), ?_, c, hc, rfl⟩
  exact List.mem_iff_getElem.mpr ⟨i, by simp [List.length_zip]; omega, by simp⟩

/-! ## Synchronising -/

section Sync

variable {P : DependencyProvider N S} {disjunctions : List Disjunction}
  {sortedCandidates : IndexMap Requirement (List (List VariableId))}
  {synced value : VariableId → Option Bool} {q : DecideQueue N} {t : DecisionTracker}

/-- The queue is right for the assignment of the previous synchronisation: its cache entirely, its entries
    for the clauses that depend on the part of the trail that is still in place only. -/
structure Tracking (P : DependencyProvider N S)
    (sortedCandidates : IndexMap Requirement (List (List VariableId)))
    (disjunctions : List Disjunction) (synced : VariableId → Option Bool) (q : DecideQueue N)
    (t : DecisionTracker) : Prop where
  indexed : Indexed P disjunctions (Marked P q) q
  aligned : ∀ (id : TrackedClauseId) c, q.clauses[id]? = some c → Aligned P sortedCandidates c.requirement
  alignedEntry : ∀ r, (q.entryOf r).occurrencesRegistered = true → Aligned P sortedCandidates r
  cached : Cached P sortedCandidates synced synced [] q
  covered : Covered synced disjunctions
    (fun c => ∀ v ∈ wakers disjunctions c, v ∈ q.mirror.take t.syncFloor) q
  tracks : Tracks synced q.mirror t

/-- What holds of the queue while `sync` visits the variables that changed. -/
structure Routed (P : DependencyProvider N S)
    (sortedCandidates : IndexMap Requirement (List (List VariableId)))
    (disjunctions : List Disjunction) (synced value : VariableId → Option Bool)
    (due : TrackedClause → Prop) (q₀ : DecideQueue N) (visited : List VariableId) (q : DecideQueue N) :
    Prop where
  indexed : Indexed P disjunctions (Marked P q₀) q
  cached : Cached P sortedCandidates synced value visited q
  covered : Covered value disjunctions
    (fun c => due c ∨ ∃ v ∈ visited, v ∈ wakers disjunctions c) q
  clauses : q.clauses = q₀.clauses
  hotNames : q.hotNames = q₀.hotNames
  hotOnly : q.hotOnly = q₀.hotOnly
  occurrences : ∀ r, (q.entryOf r).occurrencesRegistered = true →
    (q₀.entryOf r).occurrencesRegistered = true

variable {due : TrackedClause → Prop} {q₀ : DecideQueue N} {visited : List VariableId}

theorem refresh_occurrences (entry : RequirementEntry) :
    (refresh value entry).occurrencesRegistered = entry.occurrencesRegistered := by
  unfold refresh
  split
  · rfl
  · rfl
  · split <;> rfl

theorem Routed.step (h : Routed P sortedCandidates disjunctions synced value due q₀ visited q)
    (v : VariableId) :
    Routed P sortedCandidates disjunctions synced value due q₀ (v :: visited) (q.routeTouched value v) ∧
      (q.routeTouched value v).mirror = q.mirror := by
  obtain ⟨⟨queue, hotQueue, states, heq⟩, hentry⟩ := routeTouched_frame value q v
  obtain ⟨hindexed, hcached, hcovered⟩ := h.indexed.routeTouched h.cached h.covered v
  refine ⟨⟨hindexed, hcached, ?_, ?_, ?_, ?_, fun r hr => ?_⟩, by rw [heq]⟩
  · intro id c hid hawake hdue
    refine hcovered id c hid hawake ?_
    rcases hdue with hdue | ⟨w, hw, hmem⟩
    · exact .inl (.inl hdue)
    · rcases List.mem_cons.mp hw with rfl | hw
      · exact .inr hmem
      · exact .inl (.inr ⟨w, hw, hmem⟩)
  · rw [heq]
    exact h.clauses
  · rw [heq]
    exact h.hotNames
  · rw [heq]
    exact h.hotOnly
  · rw [hentry] at hr
    refine h.occurrences r ?_
    split at hr
    · rwa [refresh_occurrences] at hr
    · exact hr

/-- The mirror plays no part in routing. -/
theorem Routed.withMirror (h : Routed P sortedCandidates disjunctions synced value due q₀ visited q)
    (mirror : List VariableId) :
    Routed P sortedCandidates disjunctions synced value due q₀ visited { q with mirror := mirror } where
  indexed := h.indexed.congr (fun _ => Iff.rfl) rfl rfl rfl rfl rfl rfl rfl rfl
  cached := ⟨h.cached.listed, h.cached.registered, h.cached.satisfied, h.cached.frontier⟩
  covered := h.covered
  clauses := h.clauses
  hotNames := h.hotNames
  hotOnly := h.hotOnly
  occurrences := h.occurrences

theorem Routed.popped (h : Routed P sortedCandidates disjunctions synced value due q₀ visited q)
    (vs : List VariableId) :
    Routed P sortedCandidates disjunctions synced value due q₀ (vs.reverse ++ visited)
        (vs.foldl (routeTouched value) q) ∧
      (vs.foldl (routeTouched value) q).mirror = q.mirror := by
  induction vs generalizing q visited with
  | nil => exact ⟨h, rfl⟩
  | cons v vs ih =>
      obtain ⟨h1, hm1⟩ := h.step v
      obtain ⟨h2, hm2⟩ := ih h1
      exact ⟨by simpa using h2, hm2.trans hm1⟩

theorem Routed.pushed (h : Routed P sortedCandidates disjunctions synced value due q₀ visited q)
    (ds : List Decision) :
    Routed P sortedCandidates disjunctions synced value due q₀
        ((ds.map Decision.var).reverse ++ visited)
        (ds.foldl (fun q d => routeTouched value { q with mirror := q.mirror ++ [d.var] } d.var) q) ∧
      (ds.foldl (fun q d => routeTouched value { q with mirror := q.mirror ++ [d.var] } d.var) q).mirror =
        q.mirror ++ ds.map Decision.var := by
  induction ds generalizing q visited with
  | nil => exact ⟨h, by simp⟩
  | cons d ds ih =>
      obtain ⟨h1, hm1⟩ := (h.withMirror (q.mirror ++ [d.var])).step d.var
      obtain ⟨h2, hm2⟩ := ih h1
      exact ⟨by simpa using h2, by rw [List.foldl_cons, hm2, hm1]; simp⟩

/-- **Synchronising makes the queue right for the current assignment.** -/
theorem Tracking.sync (h : Tracking P sortedCandidates disjunctions synced q t) :
    Tracking P sortedCandidates disjunctions t.map.value
      (q.sync t.takeSyncFloor.1 t.takeSyncFloor.2.stack t.takeSyncFloor.2.map.value)
      t.takeSyncFloor.2 ∧
    (q.sync t.takeSyncFloor.1 t.takeSyncFloor.2.stack t.takeSyncFloor.2.map.value).hotNames =
      q.hotNames := by
  simp only [DecideQueue.sync, DecisionTracker.takeSyncFloor]
  -- before the first visit: the clauses whose variables are all in place are covered
  have h0 : Routed P sortedCandidates disjunctions synced t.map.value
      (fun c => ∀ v ∈ wakers disjunctions c, v ∈ q.mirror.take t.syncFloor) q [] q := by
    refine ⟨h.indexed, ⟨h.cached.listed, h.cached.registered, fun r by_ hs => ?_,
      h.cached.frontier⟩, fun id c hid hawake hdue => ?_, rfl, rfl, rfl, fun r hr => hr⟩
    · obtain ⟨hc, hv, -⟩ := h.cached.satisfied r by_ hs
      exact ⟨hc, hv, fun hm => by cases hm⟩
    · have hdue := hdue.resolve_right (by simp)
      exact h.covered id c hid (hawake.congr fun v hv => (h.tracks.value_kept (hdue v hv)).symm) hdue
  obtain ⟨h1, hm1⟩ := h0.popped (q.mirror.drop t.syncFloor)
  obtain ⟨h2, hm2⟩ := (h1.withMirror ((q.mirror.drop t.syncFloor).foldl
    (routeTouched t.map.value) q |>.mirror.take t.syncFloor)).pushed (t.stack.drop t.syncFloor)
  generalize ((t.stack.drop t.syncFloor).foldl _ _) = q' at h2 hm2 ⊢
  have hmirror : q'.mirror =
      q.mirror.take t.syncFloor ++ (t.stack.drop t.syncFloor).map Decision.var := by
    rw [hm2, hm1]
  have hmarked : ∀ id, Marked P q' id ↔ Marked P q id := by
    intro id
    rw [Marked, Marked, h2.clauses, h2.hotNames]
  -- a variable that was not visited has its old value
  have hold : ∀ v, v ∉ ((t.stack.drop t.syncFloor).map Decision.var).reverse ++
      ((q.mirror.drop t.syncFloor).reverse ++ []) → t.map.value v = synced v := by
    intro v hv
    simp only [List.append_nil, List.mem_append, List.mem_reverse, not_or] at hv
    exact h.tracks.value_untouched hv.2 hv.1
  refine ⟨⟨h2.indexed.congr hmarked rfl rfl rfl rfl rfl rfl rfl rfl, ?_, ?_, ?_, ?_, ?_⟩, h2.hotNames⟩
  · rw [h2.clauses]
    exact h.aligned
  · exact fun r hr => h.alignedEntry r (h2.occurrences r hr)
  · refine ⟨h2.cached.listed, h2.cached.registered, fun r by_ hs => ?_, fun r candidate vs count hs => ?_⟩
    · obtain ⟨hc, hv, hvis⟩ := h2.cached.satisfied r by_ hs
      refine ⟨hc, ?_, fun hm => by cases hm⟩
      by_cases hm : by_ ∈ ((t.stack.drop t.syncFloor).map Decision.var).reverse ++
          ((q.mirror.drop t.syncFloor).reverse ++ [])
      · exact hvis hm
      · rw [hold by_ hm]
        exact hv
    · obtain ⟨hw, hvis⟩ := h2.cached.frontier r candidate vs count hs
      refine ⟨?_, by simp⟩
      rw [← hw]
      refine walk_congr (fun e he => hold e.2 (hvis e.2 (mem_walkOrder he).2)) none
  · intro id c hid hawake _
    refine h2.covered id c hid hawake ?_
    by_cases hv : ∃ v ∈ wakers disjunctions c, v ∈ ((t.stack.drop t.syncFloor).map Decision.var).reverse ++
        ((q.mirror.drop t.syncFloor).reverse ++ [])
    · obtain ⟨v, hv, hm⟩ := hv
      exact .inr ⟨v, hm, hv⟩
    · refine .inl fun v hv' => ?_
      obtain ⟨b, hb⟩ := hawake.assigned hv'
      refine h.tracks.mem_kept hb fun hm => hv ⟨v, hv', ?_⟩
      exact List.mem_append_left _ (List.mem_reverse.mpr hm)
  · rw [hmirror]
    exact h.tracks.takeSyncFloor

end Sync

end DecideQueue

end Resolvo
