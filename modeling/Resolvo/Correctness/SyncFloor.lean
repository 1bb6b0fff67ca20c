import Resolvo.Correctness.QueueSync

/-!
# `Correctness.SyncFloor` — the sync floor marks exactly the unchanged prefix

Between two observations the trail may be extended, popped and cleared in any order and at any levels. The
floor that the second observation returns is the minimum length the trail had in between. Below it the trail
is what it was, and the decide queue visits every variable whose value differs.
-/

set_option linter.unusedSectionVars false

namespace Resolvo

open Sat

/-! ## Operations -/

/-- An operation on the tracker. Decisions are made at level 1 or above. -/
inductive TrackerOp where
  | tryAddDecision (d : Decision) (level : Nat) (pos : 1 ≤ level)
  | undoLast
  | undoUntil (level : Nat)
  | clear
  | nextUnpropagated

namespace DecisionTracker

/-- The tracker after an operation; `none` where `undoLast` pops the trail to empty. A decision that
    contradicts the assignment is refused and changes nothing. -/
def apply (t : DecisionTracker) : TrackerOp → Option DecisionTracker
  | .tryAddDecision d level _ =>
      match t.tryAddDecision d level with
      | some (_, t) => some t
      | none => some t
  | .undoLast => t.undoLast.map fun r => r.2.2
  | .undoUntil level => t.undoUntil level
  | .clear => some t.clear
  | .nextUnpropagated =>
      match t.nextUnpropagated with
      | some (_, t) => some t
      | none => some t

/-- The tracker after a list of operations. -/
def applyAll (t : DecisionTracker) (ops : List TrackerOp) : Option DecisionTracker := ops.foldlM apply t

/-- The lengths of the trail on the way, the first and the last included. -/
def lengths (t : DecisionTracker) (ops : List TrackerOp) : Set Nat :=
  {n | ∃ pre u, pre <+: ops ∧ t.applyAll pre = some u ∧ n = u.stack.length}

variable {t t' t₀ : DecisionTracker} {low : Nat}

/-- `t` grew from `t₀` and its trail was never shorter than `low` on the way. -/
structure Since (t₀ t : DecisionTracker) (low : Nat) : Prop where
  tracks : Tracks t₀.map.value (t₀.stack.map Decision.var) t
  floor : t.syncFloor = low
  kept : t.trail.take low = t₀.trail.take low

/-- The stack is the trail without the levels. -/
theorem stack_eq_trail (t : DecisionTracker) :
    t.stack = t.trail.map fun e => ⟨e.lit.var, !e.lit.negate, e.reason⟩ := by
  unfold trail
  rw [List.map_map]
  refine Eq.trans (List.map_id' t.stack).symm (List.map_congr_left fun d _ => ?_)
  show d = ⟨d.var, !!d.value, d.derivedFrom⟩
  rw [Bool.not_not]

namespace Since

theorem le (h : Since t₀ t low) : low ≤ t.stack.length := h.floor ▸ h.tracks.floor_le

/-- Right after an observation. -/
theorem refl (h : t.Assigned) (hfloor : t.syncFloor = t.stack.length) : Since t t t.stack.length where
  tracks := by
    refine ⟨h.nodup, h.value_iff, hfloor.le, ?_, fun d hd => ?_, fun v hv => ?_⟩
    · rw [List.map_take]
    · exact (h.value_iff d.var d.value).mpr ⟨d, List.mem_of_mem_take hd, rfl, rfl⟩
    · obtain ⟨b, hb⟩ := Option.ne_none_iff_exists'.mp hv
      obtain ⟨d, hd, rfl, -⟩ := (h.value_iff v b).mp hb
      exact List.mem_map_of_mem hd
  floor := hfloor
  kept := rfl

/-- Assigning a variable does not shorten the trail. -/
theorem tryAddDecision (h : Since t₀ t low) {d : Decision} {level : Nat} {b : Bool}
    (ha : t.tryAddDecision d level = some (b, t')) : Since t₀ t' low ∧ low ≤ t'.stack.length := by
  obtain ⟨htracks, hfloor⟩ := h.tracks.tryAddDecision ha
  have hlow : t'.syncFloor = low := hfloor.trans h.floor
  refine ⟨⟨htracks, hlow, ?_⟩, hlow ▸ htracks.floor_le⟩
  rcases DecisionTracker.tryAddDecision_cases ha with ⟨-, hnone, rfl⟩ | ⟨-, -, rfl⟩
  · rw [h.tracks.assigned.push_trail hnone, List.take_append_of_le_length (t.trail_length ▸ h.le)]
    exact h.kept
  · exact h.kept

/-- Popping an entry. -/
theorem undoLast (h : Since t₀ t low) {d : Decision} {level : Nat}
    (hu : t.undoLast = some (d, level, t')) :
    Since t₀ t' (min low t'.stack.length) ∧ t'.stack.length ≤ t.stack.length := by
  have htracks := (h.tracks.undoLast hu).1
  obtain ⟨hlast, top, -, -, rfl⟩ := undoLast_cases hu
  have htrail := h.tracks.assigned.pop_trail hlast t.stack.dropLast.length
    (min t.syncFloor t.stack.dropLast.length)
  have hlen : t.stack.dropLast.length ≤ t.stack.length := by
    rw [List.length_dropLast]
    omega
  refine ⟨⟨htracks, congrArg (min · t.stack.dropLast.length) h.floor, ?_⟩, hlen⟩
  dsimp only at htrail ⊢
  generalize ht' : (⟨t.map.reset d.var, t.stack.dropLast, t.stack.dropLast.length,
    min t.syncFloor t.stack.dropLast.length⟩ : DecisionTracker) = t' at htrail ⊢
  have htaken : min low t.stack.dropLast.length ≤ t'.trail.length := by
    rw [trail_length]
    subst ht'
    exact Nat.min_le_right _ _
  have hkept := congrArg (List.take (min low t.stack.dropLast.length)) h.kept
  rw [List.take_take, List.take_take, Nat.min_eq_left (Nat.min_le_left _ _), htrail,
    List.take_append_of_le_length htaken] at hkept
  exact hkept

theorem undoUntilLoop {level : Nat} (fuel : Nat) (h : Since t₀ t low)
    (hu : DecisionTracker.undoUntilLoop level fuel t = some t') :
    Since t₀ t' (min low t'.stack.length) ∧ t'.stack.length ≤ t.stack.length := by
  have hsame : Since t₀ t (min low t.stack.length) ∧ t.stack.length ≤ t.stack.length := by
    rw [Nat.min_eq_left h.le]
    exact ⟨h, le_rfl⟩
  induction fuel generalizing t low with
  | zero =>
      obtain rfl : t = t' := Option.some.inj hu
      exact hsame
  | succ fuel ih =>
      unfold DecisionTracker.undoUntilLoop at hu
      split at hu
      · obtain rfl : t = t' := Option.some.inj hu
        exact hsame
      · split at hu
        · obtain rfl : t = t' := Option.some.inj hu
          exact hsame
        · split at hu
          · cases hu
          · next d level' t₁ hundo =>
              obtain ⟨h₁, hlen₁⟩ := h.undoLast hundo
              have hmin₁ : min (min low t₁.stack.length) t₁.stack.length = min low t₁.stack.length := by omega
              obtain ⟨h₂, hlen₂⟩ := ih h₁ hu (by rw [hmin₁]; exact ⟨h₁, le_rfl⟩)
              have hmin₂ : min (min low t₁.stack.length) t'.stack.length = min low t'.stack.length := by omega
              rw [hmin₂] at h₂
              exact ⟨h₂, hlen₂.trans hlen₁⟩

/-- Clearing replaces the floor too. -/
theorem clear (h : Since t₀ t low) : Since t₀ t.clear 0 :=
  ⟨h.tracks.clear, rfl, by rw [List.take_zero, List.take_zero]⟩

/-- **One operation** lowers the floor to the new length of the trail, if that is shorter. -/
theorem apply (h : Since t₀ t low) {op : TrackerOp} (ha : t.apply op = some t') :
    Since t₀ t' (min low t'.stack.length) := by
  cases op with
  | tryAddDecision d level pos =>
      unfold DecisionTracker.apply at ha
      dsimp only at ha
      split at ha
      · next b t₁ hadd =>
          obtain rfl : t₁ = t' := Option.some.inj ha
          obtain ⟨h', hle⟩ := h.tryAddDecision hadd
          rw [Nat.min_eq_left hle]
          exact h'
      · obtain rfl : t = t' := Option.some.inj ha
        rw [Nat.min_eq_left h.le]
        exact h
  | undoLast =>
      obtain ⟨r, hr, rfl⟩ := Option.map_eq_some_iff.mp ha
      exact (h.undoLast hr).1
  | undoUntil level =>
      have hu : t.undoUntil level = some t' := ha
      unfold DecisionTracker.undoUntil at hu
      split at hu
      · obtain rfl : t.clear = t' := Option.some.inj hu
        show Since t₀ t.clear (min low 0)
        rw [Nat.min_zero]
        exact h.clear
      · exact (h.undoUntilLoop _ hu).1
  | clear =>
      obtain rfl : t.clear = t' := Option.some.inj ha
      show Since t₀ t.clear (min low 0)
      rw [Nat.min_zero]
      exact h.clear
  | nextUnpropagated =>
      unfold DecisionTracker.apply at ha
      dsimp only at ha
      split at ha
      · next d t₁ hn =>
          obtain rfl : t₁ = t' := Option.some.inj ha
          obtain ⟨-, rfl⟩ := nextUnpropagated_spec hn
          show Since t₀ _ (min low t.stack.length)
          rw [Nat.min_eq_left h.le]
          exact ⟨⟨h.tracks.nodup, h.tracks.value_iff, h.tracks.floor_le, h.tracks.kept, h.tracks.values,
            h.tracks.mirrored⟩, h.floor, h.kept⟩
      · obtain rfl : t = t' := Option.some.inj ha
        rw [Nat.min_eq_left h.le]
        exact h

end Since

/-- A run with one more operation. -/
theorem applyAll_concat (t : DecisionTracker) (ops : List TrackerOp) (op : TrackerOp) :
    t.applyAll (ops ++ [op]) = (t.applyAll ops).bind fun u => u.apply op := by
  unfold applyAll
  rw [List.foldlM_append]
  cases List.foldlM DecisionTracker.apply t ops with
  | none => rfl
  | some u =>
      show Option.bind (u.apply op) some = u.apply op
      exact Option.bind_fun_some (u.apply op)

/-- The lengths of a run with one more operation. -/
theorem mem_lengths_concat {t u u' : DecisionTracker} {ops : List TrackerOp} {op : TrackerOp}
    (hu : t.applyAll ops = some u) (hu' : u.apply op = some u') {n : Nat} :
    n ∈ t.lengths (ops ++ [op]) ↔ n ∈ t.lengths ops ∨ n = u'.stack.length := by
  have hlast : t.applyAll (ops ++ [op]) = some u' := by
    rw [applyAll_concat, hu]
    exact hu'
  constructor
  · rintro ⟨pre, w, hpre, hw, rfl⟩
    rcases List.prefix_concat_iff.mp hpre with rfl | hpre
    · rw [hlast] at hw
      exact .inr (congrArg (fun t => t.stack.length) (Option.some.inj hw).symm)
    · exact .inl ⟨pre, w, hpre, hw, rfl⟩
  · rintro (⟨pre, w, hpre, hw, rfl⟩ | rfl)
    · exact ⟨pre, w, hpre.trans (List.prefix_append _ _), hw, rfl⟩
    · exact ⟨_, u', List.prefix_refl _, hlast, rfl⟩

/-- **A run of operations** lowers the floor to the minimum length on the way. -/
theorem since_applyAll (h : t₀.Assigned) (hfloor : t₀.syncFloor = t₀.stack.length) {ops : List TrackerOp}
    (ht : t₀.applyAll ops = some t) : ∃ low, Since t₀ t low ∧ IsLeast (t₀.lengths ops) low := by
  induction ops using List.reverseRecOn generalizing t with
  | nil =>
      obtain rfl : t₀ = t := Option.some.inj ht
      refine ⟨_, .refl h hfloor, ⟨[], t₀, List.prefix_refl _, rfl, rfl⟩, ?_⟩
      rintro n ⟨pre, u, hpre, hu, rfl⟩
      rw [List.prefix_nil.mp hpre] at hu
      obtain rfl : t₀ = u := Option.some.inj hu
      exact le_rfl
  | append_singleton ops op ih =>
      rw [applyAll_concat] at ht
      obtain ⟨u, hu, hop⟩ := Option.bind_eq_some_iff.mp ht
      obtain ⟨low, hsince, hmem, hle⟩ := ih hu
      refine ⟨_, hsince.apply hop, ?_, fun n hn => ?_⟩
      · rw [mem_lengths_concat hu hop]
        rcases Nat.le_total low t.stack.length with hmin | hmin
        · rw [Nat.min_eq_left hmin]
          exact .inl hmem
        · rw [Nat.min_eq_right hmin]
          exact .inr rfl
      · rcases (mem_lengths_concat hu hop).mp hn with hn | rfl
        · exact (Nat.min_le_left _ _).trans (hle hn)
        · exact Nat.min_le_right _ _

/-- The tracker is cleared on the way: the trail was empty. -/
theorem zero_mem_lengths {ops : List TrackerOp} (ht : t₀.applyAll ops = some t) (hclear : .clear ∈ ops) :
    0 ∈ t₀.lengths ops := by
  obtain ⟨pre, post, rfl⟩ := List.append_of_mem hclear
  have hsplit : pre ++ .clear :: post = pre ++ [.clear] ++ post := by simp
  rw [hsplit] at ht ⊢
  unfold applyAll at ht
  rw [List.foldlM_append] at ht
  obtain ⟨u, hu, -⟩ := Option.bind_eq_some_iff.mp ht
  have hlast : t₀.applyAll (pre ++ [.clear]) = some u := hu
  rw [applyAll_concat] at hlast
  obtain ⟨w, -, hw⟩ := Option.bind_eq_some_iff.mp hlast
  obtain rfl : w.clear = u := Option.some.inj hw
  exact ⟨_, w.clear, List.prefix_append _ _, hu, rfl⟩

end DecisionTracker

/-! ## The queue -/

namespace DecideQueue

variable {N : Type} [DecidableEq N]

/-- The variables that a synchronisation routes: those popped and those pushed since the previous one. -/
def touched (q : DecideQueue N) (floor : Nat) (trail : List Decision) : List VariableId :=
  q.mirror.drop floor ++ (trail.drop floor).map Decision.var

/-- Replace the mirror. -/
def withMirror (q : DecideQueue N) (mirror : List VariableId) : DecideQueue N := { q with mirror := mirror }

section Mirror

variable (value : VariableId → Option Bool) (mirror : List VariableId)

theorem enqueueAll_withMirror (q : DecideQueue N) (ids : List TrackedClauseId) :
    (q.withMirror mirror).enqueueAll value ids = (q.enqueueAll value ids).withMirror mirror := by
  refine List.foldl_hom (fun q : DecideQueue N => q.withMirror mirror) fun q id => ?_
  unfold enqueueClause withMirror
  dsimp only
  split
  · rfl
  · split <;> rfl

theorem routeRequirement_withMirror (q : DecideQueue N) (r : Requirement) :
    routeRequirement value (q.withMirror mirror) r = (routeRequirement value q r).withMirror mirror := by
  have hsame : ((q.withMirror mirror).requirementStates.getD r {}).state = (q.requirementStates.getD r {}).state := rfl
  unfold routeRequirement
  rw [hsame]
  cases (q.requirementStates.getD r {}).state with
  | dirty => rfl
  | frontier candidate vs count => rfl
  | satisfied by_ =>
      dsimp only
      by_cases hvalue : value by_ = some true
      · rw [if_pos hvalue, if_pos hvalue]
      · rw [if_neg hvalue, if_neg hvalue]
        exact enqueueAll_withMirror value mirror (q.setState r .dirty) _

theorem wakeParent_withMirror (q : DecideQueue N) (v : VariableId) :
    wakeParent value (q.withMirror mirror) v = (wakeParent value q v).withMirror mirror := by
  unfold wakeParent
  split
  · have hsame : (q.withMirror mirror).parentPositions.get? v = q.parentPositions.get? v := rfl
    rw [hsame]
    cases q.parentPositions.get? v with
    | none => rfl
    | some pos => exact enqueueAll_withMirror value mirror q ((q.clausesByParent[pos]?).getD [])
  · rfl

/-- Routing does not look at the mirror. -/
theorem routeTouched_withMirror (q : DecideQueue N) (v : VariableId) :
    routeTouched value (q.withMirror mirror) v = (routeTouched value q v).withMirror mirror := by
  rw [routeTouched_eq, routeTouched_eq, wakeParent_withMirror]
  have hfold (l : List Requirement) (q : DecideQueue N) : l.foldl (routeRequirement value) (q.withMirror mirror) =
      (l.foldl (routeRequirement value) q).withMirror mirror :=
    List.foldl_hom (fun q : DecideQueue N => q.withMirror mirror) (routeRequirement_withMirror value mirror)
  have hsame : ((wakeParent value q v).withMirror mirror).requirementsByCandidate =
      (wakeParent value q v).requirementsByCandidate := rfl
  rw [hsame, hfold]
  exact enqueueAll_withMirror value mirror _ _

theorem routeAll_withMirror (vs : List VariableId) (q : DecideQueue N) :
    vs.foldl (routeTouched value) (q.withMirror mirror) = (vs.foldl (routeTouched value) q).withMirror mirror :=
  List.foldl_hom (fun q : DecideQueue N => q.withMirror mirror) (routeTouched_withMirror value mirror)

end Mirror

theorem routePushed_eq (value : VariableId → Option Bool) (ds : List Decision) (q : DecideQueue N)
    (mirror : List VariableId) :
    ds.foldl (fun (q : DecideQueue N) (d : Decision) =>
        routeTouched value (q.withMirror (q.mirror ++ [d.var])) d.var) (q.withMirror mirror) =
      ((ds.map Decision.var).foldl (routeTouched value) q).withMirror (mirror ++ ds.map Decision.var) := by
  induction ds generalizing q mirror with
  | nil =>
      rw [List.map_nil, List.append_nil]
      rfl
  | cons d ds ih =>
      rw [List.foldl_cons, List.map_cons, List.foldl_cons]
      have hone : routeTouched value ((q.withMirror mirror).withMirror (mirror ++ [d.var])) d.var =
          (routeTouched value q d.var).withMirror (mirror ++ [d.var]) :=
        routeTouched_withMirror value (mirror ++ [d.var]) q d.var
      refine (congrArg (List.foldl _ · ds) hone).trans ?_
      rw [ih, List.append_assoc]
      rfl

/-- **A synchronisation routes the touched variables** one after the other and rebuilds the mirror above the
    floor. -/
theorem sync_eq (q : DecideQueue N) (floor : Nat) (trail : List Decision) (value : VariableId → Option Bool) :
    q.sync floor trail value = ((q.touched floor trail).foldl (routeTouched value) q).withMirror
      (q.mirror.take floor ++ (trail.drop floor).map Decision.var) := by
  have hkeep : ((q.mirror.drop floor).foldl (routeTouched value) q).mirror = q.mirror := by
    have h := routeAll_withMirror value q.mirror (q.mirror.drop floor) q
    have hq : q.withMirror q.mirror = q := rfl
    rw [hq] at h
    rw [h]
    rfl
  unfold sync touched
  dsimp only
  rw [hkeep, List.foldl_append]
  exact routePushed_eq value (trail.drop floor) _ (q.mirror.take floor)

end DecideQueue

/-! ## The result -/

section Observed

variable {N : Type} [DecidableEq N] {t t' : DecisionTracker} {q q' : DecideQueue N} {ops : List TrackerOp}

/-- A tracker and the queue right after an observation: the floor was taken and the queue synchronised with it.
    In between, the queue may do anything that leaves its mirror alone. -/
inductive Observed : DecisionTracker → DecideQueue N → Prop where
  | init {q : DecideQueue N} (hq : q.mirror = []) : Observed {} q
  | sync {t t' : DecisionTracker} {q q' : DecideQueue N} {ops : List TrackerOp} (h : Observed t q)
      (ht : t.applyAll ops = some t') (hq : q'.mirror = q.mirror) :
      Observed t'.takeSyncFloor.2
        (q'.sync t'.takeSyncFloor.1 t'.takeSyncFloor.2.stack t'.takeSyncFloor.2.map.value)

/-- After an observation everything counts as unchanged, and the mirror is the trail. -/
theorem Observed.synced (h : Observed t q) :
    t.Assigned ∧ t.syncFloor = t.stack.length ∧ q.mirror = t.stack.map Decision.var := by
  induction h with
  | init hq => exact ⟨.empty, rfl, hq⟩
  | @sync t t' q q' ops h ht hq ih =>
      obtain ⟨hassigned, hfloor, hmirror⟩ := ih
      obtain ⟨low, hsince, -⟩ := DecisionTracker.since_applyAll hassigned hfloor ht
      have hkept := hsince.tracks.kept
      refine ⟨⟨hsince.tracks.nodup, hsince.tracks.value_iff⟩, rfl, ?_⟩
      rw [DecideQueue.sync_eq, hq, hmirror]
      show (t.stack.map Decision.var).take t'.syncFloor ++ (t'.stack.drop t'.syncFloor).map Decision.var =
        t'.stack.map Decision.var
      rw [← hkept, ← List.map_append, List.take_append_drop]

/-- **The sync floor marks exactly the unchanged prefix.** Between two observations, whatever is done to the
    tracker as long as the trail is not popped to empty: the floor is the minimum length of the trail on the way
    (0 if it was cleared), the trail below the floor is what it was, after the synchronisation the mirror is
    the trail, and every variable whose value differs was routed. On the way, exactly the variables on the trail
    have a value, and each is there once. -/
theorem takeSyncFloor_marks (h : Observed t q) (ht : t.applyAll ops = some t') (hq : q'.mirror = q.mirror) :
    let floor := t'.takeSyncFloor.1
    IsLeast (t.lengths ops) floor ∧ (.clear ∈ ops → floor = 0) ∧
      t'.stack.take floor = t.stack.take floor ∧ t'.trail.take floor = t.trail.take floor ∧
      (q'.sync floor t'.stack t'.map.value).mirror = t'.stack.map Decision.var ∧
      (q'.sync floor t'.stack t'.map.value = ((q'.touched floor t'.stack).foldl
        (DecideQueue.routeTouched t'.map.value) q').withMirror (t'.stack.map Decision.var)) ∧
      (∀ v, t'.map.value v ≠ t.map.value v → v ∈ q'.touched floor t'.stack) ∧
      ∀ pre u, pre <+: ops → t.applyAll pre = some u →
        (u.stack.map Decision.var).Nodup ∧
          ∀ v b, u.map.value v = some b ↔ ∃ d ∈ u.stack, d.var = v ∧ d.value = b := by
  intro floor
  obtain ⟨hassigned, hfloor, hmirror⟩ := h.synced
  obtain ⟨low, hsince, hleast⟩ := DecisionTracker.since_applyAll hassigned hfloor ht
  obtain rfl : floor = low := hsince.floor
  have hsynced : (q'.sync floor t'.stack t'.map.value).mirror = t'.stack.map Decision.var :=
    (Observed.sync h ht hq).synced.2.2
  have heq := q'.sync_eq floor t'.stack t'.map.value
  refine ⟨hleast, fun hclear => ?_, ?_, hsince.kept, hsynced, ?_, fun v hv => ?_, fun pre u hpre hu => ?_⟩
  · have hle := hleast.2 (DecisionTracker.zero_mem_lengths ht hclear)
    omega
  · rw [t'.stack_eq_trail, t.stack_eq_trail, ← List.map_take, ← List.map_take, hsince.kept]
  · rw [heq] at hsynced ⊢
    exact congrArg _ hsynced
  · by_contra hnot
    unfold DecideQueue.touched at hnot
    rw [hq, hmirror, List.mem_append, not_or] at hnot
    exact hv (hsince.tracks.value_untouched hnot.1 hnot.2)
  · obtain ⟨low, hsince, -⟩ := DecisionTracker.since_applyAll hassigned hfloor hu
    exact ⟨hsince.tracks.nodup, hsince.tracks.value_iff⟩

/-- Three decisions, of which the second is on a higher level than the third. -/
def threeDecisions : List TrackerOp :=
  [.tryAddDecision ⟨1, true, 0⟩ 1 (by decide), .tryAddDecision ⟨2, true, 0⟩ 3 (by decide),
    .tryAddDecision ⟨3, false, 0⟩ 2 (by decide)]

/-- Two pops and a push. -/
def popsAndPush : List TrackerOp := [.undoLast, .undoLast, .tryAddDecision ⟨4, true, 0⟩ 1 (by decide)]

theorem takeSyncFloor_marks_popsAndPush :
    ∃ t t' : DecisionTracker, ∃ q : DecideQueue Nat, t.applyAll popsAndPush = some t' ∧
      IsLeast (t.lengths popsAndPush) 1 ∧ t'.stack.take 1 = t.stack.take 1 ∧
      (q.sync 1 t'.stack t'.map.value).mirror = [1, 4] := by
  have hstart := Observed.sync (Observed.init (rfl : ({} : DecideQueue Nat).mirror = []))
    (rfl : ({} : DecisionTracker).applyAll threeDecisions = some _) (rfl : ({} : DecideQueue Nat).mirror = _)
  have hmarks := takeSyncFloor_marks hstart
    (rfl : DecisionTracker.applyAll _ popsAndPush = some _) (rfl : DecideQueue.mirror _ = _)
  exact ⟨_, _, _, rfl, hmarks.1, hmarks.2.2.1, hmarks.2.2.2.2.1⟩

end Observed

end Resolvo
