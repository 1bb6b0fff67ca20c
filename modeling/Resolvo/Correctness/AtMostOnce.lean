import Resolvo.Lib.Binary
import Resolvo.Lib.Fold
import Resolvo.Model.Clause

/-!
# `Correctness.AtMostOnce` — the incremental at-most-one encoding, on its own

`AtMostOnceTracker::add` gets two callbacks: one records a clause, one hands out a variable. Here they
write to a log. Whatever the order and the repetitions of the variables, the log holds exactly the clauses
that fix every helper to its bit of the number of a true variable, and there are just enough helpers to
tell the numbers apart.
-/

set_option linter.unusedSectionVars false

namespace Resolvo

open Sat

namespace AtMostOnceTracker

variable {V : Type}

/-- What the callbacks record: how many variables were handed out, and the clauses. -/
structure Log (V : Type) where
  allocated : Nat := 0
  clauses : List (V × V × Bool) := []

namespace Log

/-- `alloc_clause`: the clause `¬a ∨ b`, or `¬a ∨ ¬b`. -/
def allocClause (a b : V) (positive : Bool) (log : Log V) : Log V :=
  { log with clauses := log.clauses ++ [(a, b, positive)] }

/-- `alloc_var` hands out the variables of a sequence. -/
def allocVar (fresh : Nat → V) (log : Log V) : V × Log V :=
  (fresh log.allocated, { log with allocated := log.allocated + 1 })

end Log

/-- A recorded clause holds: a true variable fixes the helper. -/
def Fixes (σ : V → Bool) (clause : V × V × Bool) : Prop :=
  σ clause.1 = true → σ clause.2.1 = clause.2.2

/-- Recording clauses one after the other. -/
theorem foldl_allocClause {α : Type} (a b : α → V) (p : α → Bool) (l : List α) (log : Log V) :
    l.foldl (fun log x => Log.allocClause (a x) (b x) (p x) log) log =
      { log with clauses := log.clauses ++ l.map fun x => (a x, b x, p x) } := by
  induction l generalizing log with
  | nil => simp
  | cons x l ih =>
      rw [List.foldl_cons, ih]
      simp [Log.allocClause]

variable [DecidableEq V]

/-- A sequence of calls of `add` on a new tracker. -/
def addAll (fresh : Nat → V) (vars : List V) : AtMostOnceTracker V × Log V :=
  vars.foldl (fun (t, log) v => (t.add v Log.allocClause (Log.allocVar fresh) log).2) ({}, {})

/-! ## The invariant -/

/-- The clauses fix the bits of the numbers, as far as the helpers go. -/
structure Records (fresh : Nat → V) (t : AtMostOnceTracker V) (log : Log V) : Prop where
  helpers : t.helpers = (List.range log.allocated).map fresh
  clauses : ∀ c, c ∈ log.clauses ↔
    ∃ i j : Nat, t.vars[j]? = some c.1 ∧ t.helpers[i]? = some c.2.1 ∧ c.2.2 = j.testBit i

/-- What a tracker that was given the variables of a list looks like. -/
structure Tracked (fresh : Nat → V) (added : List V) (t : AtMostOnceTracker V) (log : Log V) : Prop
    extends Records fresh t log where
  nodup : t.vars.Nodup
  mem : ∀ v, v ∈ t.vars ↔ v ∈ added
  capacity : t.vars.length ≤ 2 ^ t.helpers.length
  least : ∀ h, t.vars.length ≤ 2 ^ h → t.helpers.length ≤ h

variable {fresh : Nat → V} {added : List V} {t : AtMostOnceTracker V} {log : Log V}

theorem Tracked.empty : Tracked fresh [] ({} : AtMostOnceTracker V) {} where
  helpers := rfl
  clauses := by simp
  nodup := List.nodup_nil
  mem := fun _ => Iff.rfl
  capacity := Nat.zero_le _
  least := fun h _ => Nat.zero_le h

/-- One more helper: its bit is recorded for every variable that is there. -/
theorem Records.grow (h : Records fresh t log) :
    Records fresh { t with helpers := t.helpers ++ [fresh log.allocated] }
      (t.vars.zipIdx.foldl (fun st (var, idx) =>
        Log.allocClause var (fresh log.allocated) (idx.testBit t.helpers.length) st)
        { log with allocated := log.allocated + 1 }) := by
  have hfold := foldl_allocClause (fun x : V × Nat => x.1) (fun _ => fresh log.allocated)
    (fun x => x.2.testBit t.helpers.length) t.vars.zipIdx { log with allocated := log.allocated + 1 }
  have hlen : t.helpers.length = log.allocated := by rw [h.helpers]; simp
  refine hfold ▸ ⟨?_, fun c => ?_⟩
  · show t.helpers ++ [fresh log.allocated] = (List.range (log.allocated + 1)).map fresh
    rw [List.range_succ, List.map_append, ← h.helpers]
    rfl
  · rw [List.mem_append, h.clauses, List.mem_map]
    constructor
    · rintro (⟨i, j, hj, hi, hb⟩ | ⟨⟨v, j⟩, hx, rfl⟩)
      · refine ⟨i, j, hj, ?_, hb⟩
        rw [List.getElem?_append_left (List.getElem?_eq_some_iff.mp hi).1]
        exact hi
      · exact ⟨t.helpers.length, j, List.mem_zipIdx_iff_getElem?.mp hx, List.getElem?_concat_length, rfl⟩
    · rintro ⟨i, j, hj, hi, hb⟩
      by_cases hlt : i < t.helpers.length
      · rw [List.getElem?_append_left hlt] at hi
        exact .inl ⟨i, j, hj, hi, hb⟩
      · -- the new helper comes last
        rw [List.getElem?_append_right (Nat.not_lt.mp hlt)] at hi
        obtain ⟨hzero, hv⟩ := List.getElem?_eq_some_iff.mp hi
        rw [List.length_singleton, Nat.lt_one_iff] at hzero
        obtain rfl : i = t.helpers.length := by omega
        refine .inr ⟨(c.1, j), List.mem_zipIdx_iff_getElem?.mpr hj, ?_⟩
        simp only [Nat.sub_self, List.getElem_cons_zero] at hv
        rw [← hb, hv]

/-- One more variable: its bits are recorded for every helper. -/
theorem Records.addVar (h : Records fresh t log) (v : V) :
    Records fresh { t with vars := t.vars ++ [v] }
      (t.helpers.zipIdx.foldl (fun st (helper, bitIdx) =>
        Log.allocClause v helper (t.vars.length.testBit bitIdx) st) log) := by
  have hfold := foldl_allocClause (fun _ => v) (fun x : V × Nat => x.1)
    (fun x => t.vars.length.testBit x.2) t.helpers.zipIdx log
  refine hfold ▸ ⟨h.helpers, fun c => ?_⟩
  rw [List.mem_append, h.clauses, List.mem_map]
  constructor
  · rintro (⟨i, j, hj, hi, hb⟩ | ⟨⟨helper, i⟩, hx, rfl⟩)
    · exact ⟨i, j, by rw [List.getElem?_append_left (List.getElem?_eq_some_iff.mp hj).1]; exact hj, hi, hb⟩
    · exact ⟨i, t.vars.length, List.getElem?_concat_length, List.mem_zipIdx_iff_getElem?.mp hx, rfl⟩
  · rintro ⟨i, j, hj, hi, hb⟩
    by_cases hlt : j < t.vars.length
    · rw [List.getElem?_append_left hlt] at hj
      exact .inl ⟨i, j, hj, hi, hb⟩
    · -- the new variable comes last
      rw [List.getElem?_append_right (Nat.not_lt.mp hlt)] at hj
      obtain ⟨hzero, hv⟩ := List.getElem?_eq_some_iff.mp hj
      rw [List.length_singleton, Nat.lt_one_iff] at hzero
      obtain rfl : j = t.vars.length := by omega
      refine .inr ⟨(c.2.1, i), List.mem_zipIdx_iff_getElem?.mpr hi, ?_⟩
      simp only [Nat.sub_self, List.getElem_cons_zero] at hv
      rw [← hb, hv]

/-! ## Adding a variable -/

/-- Growing stops with just enough helpers for one more variable. -/
theorem growHelpers_spec (fuel : Nat) (h : Records fresh t log)
    (hfuel : t.vars.length ≤ fuel + t.helpers.length)
    (hleast : ∀ k, t.vars.length + 1 ≤ 2 ^ k → t.helpers.length ≤ k) :
    let r := growHelpers Log.allocClause (Log.allocVar fresh) fuel t log
    Records fresh r.1 r.2 ∧ r.1.vars = t.vars ∧ t.vars.length + 1 ≤ 2 ^ r.1.helpers.length ∧
      ∀ k, t.vars.length + 1 ≤ 2 ^ k → r.1.helpers.length ≤ k := by
  induction fuel generalizing t log with
  | zero =>
      have hlt := Nat.lt_two_pow_self (n := t.helpers.length)
      refine ⟨h, rfl, ?_, hleast⟩
      show t.vars.length + 1 ≤ 2 ^ t.helpers.length
      omega
  | succ fuel ih =>
      have hpos : 0 < 2 ^ t.helpers.length := Nat.two_pow_pos _
      unfold growHelpers
      by_cases hfull : t.vars.length > 2 ^ t.helpers.length - 1
      · rw [if_pos hfull]
        have hlen : (t.helpers ++ [fresh log.allocated]).length = t.helpers.length + 1 := by simp
        refine ih h.grow ?_ ?_
        · show t.vars.length ≤ fuel + (t.helpers ++ [fresh log.allocated]).length
          rw [hlen]
          omega
        · intro k hk
          show (t.helpers ++ [fresh log.allocated]).length ≤ k
          rw [hlen]
          have hlt : 2 ^ t.helpers.length < 2 ^ k := by
            have hk' : t.vars.length + 1 ≤ 2 ^ k := hk
            omega
          exact (Nat.pow_lt_pow_iff_right Nat.one_lt_two).mp hlt
      · rw [if_neg hfull]
        refine ⟨h, rfl, ?_, hleast⟩
        show t.vars.length + 1 ≤ 2 ^ t.helpers.length
        omega

/-- A variable that is tracked already changes nothing. -/
theorem add_seen {v : V} (hv : v ∈ t.vars) :
    t.add v Log.allocClause (Log.allocVar fresh) log = (false, t, log) := by
  unfold add
  rw [if_pos hv]

/-- **Adding a variable** that is new. -/
theorem Tracked.add (h : Tracked fresh added t log) {v : V} (hv : v ∉ t.vars) :
    let r := t.add v Log.allocClause (Log.allocVar fresh) log
    r.1 = true ∧ Tracked fresh (added ++ [v]) r.2.1 r.2.2 := by
  have hmem : ∀ w, w ∈ t.vars ++ [v] ↔ w ∈ added ++ [v] := fun w => by
    rw [List.mem_append, List.mem_append, h.mem]
  have hnodup : (t.vars ++ [v]).Nodup := by
    refine List.nodup_append.mpr ⟨h.nodup, List.nodup_singleton v, fun w hw x hx => ?_⟩
    rw [List.mem_singleton.mp hx]
    rintro rfl
    exact hv hw
  unfold AtMostOnceTracker.add
  rw [if_neg hv]
  by_cases hempty : t.vars.isEmpty = true
  · -- the first variable needs no helper
    rw [if_pos hempty]
    have hnil := List.isEmpty_iff.mp hempty
    have hzero : t.helpers.length = 0 := Nat.le_zero.mp (h.least 0 (by simp [hnil]))
    have hhelpers := List.length_eq_zero_iff.mp hzero
    have hclauses : ∀ c, c ∉ log.clauses := fun c hc => by
      obtain ⟨i, j, hj, -⟩ := (h.clauses c).mp hc
      rw [hnil] at hj
      cases hj
    rw [hnil] at hmem hnodup
    refine ⟨rfl, ⟨h.helpers, fun c => ⟨fun hc => absurd hc (hclauses c), ?_⟩⟩, hnodup, hmem, ?_,
      fun k _ => ?_⟩
    · rintro ⟨i, j, -, hi, -⟩
      rw [hhelpers] at hi
      cases hi
    · show [v].length ≤ 2 ^ t.helpers.length
      rw [hzero]
      exact Nat.le_refl 1
    · show t.helpers.length ≤ k
      rw [hzero]
      exact Nat.zero_le k
  · rw [if_neg hempty]
    have hgrow := growHelpers_spec t.vars.length h.toRecords (Nat.le_add_right _ _)
      fun k hk => h.least k (Nat.le_of_succ_le hk)
    generalize growHelpers Log.allocClause (Log.allocVar fresh) t.vars.length t log = r at hgrow ⊢
    obtain ⟨t', log'⟩ := r
    obtain ⟨hrecords, hvars, hcap, hleast⟩ := hgrow
    dsimp only at hrecords hvars hcap hleast ⊢
    rw [← hvars] at hmem hnodup hcap hleast
    refine ⟨rfl, hrecords.addVar v, hnodup, hmem, ?_, fun k hk => hleast k ?_⟩
    · show (t'.vars ++ [v]).length ≤ 2 ^ t'.helpers.length
      rw [List.length_append, List.length_singleton]
      exact hcap
    · have hk' : (t'.vars ++ [v]).length ≤ 2 ^ k := hk
      rwa [List.length_append, List.length_singleton] at hk'

/-- **Every sequence of calls** keeps the invariant. -/
theorem addAll_tracked (fresh : Nat → V) (vars : List V) :
    Tracked fresh vars (addAll fresh vars).1 (addAll fresh vars).2 := by
  induction vars using List.reverseRecOn with
  | nil => exact .empty
  | append_singleton vars v ih =>
      unfold addAll
      rw [List.foldl_append, List.foldl_cons, List.foldl_nil]
      generalize hr : vars.foldl _ _ = r at *
      obtain ⟨t, log⟩ := r
      have ih' : Tracked fresh vars t log := by
        have := ih
        unfold addAll at this
        rwa [hr] at this
      by_cases hv : v ∈ t.vars
      · dsimp only
        rw [add_seen hv]
        refine { ih' with mem := fun w => ?_ }
        rw [ih'.mem, List.mem_append, List.mem_singleton]
        refine ⟨.inl, fun hw => hw.elim id fun hw => ?_⟩
        rw [hw]
        exact (ih'.mem v).mp hv
      · exact (ih'.add hv).2

/-! ## The meaning of the clauses -/

theorem Records.fixes_iff (h : Records fresh t log) (σ : V → Bool) :
    (∀ c ∈ log.clauses, Fixes σ c) ↔ FixesBits σ t.vars t.helpers := by
  constructor
  · intro hall i j v g hj hi hv
    exact hall (v, g, j.testBit i) ((h.clauses _).mpr ⟨i, j, hj, hi, rfl⟩) hv
  · intro hfix c hc hv
    obtain ⟨i, j, hj, hi, hb⟩ := (h.clauses c).mp hc
    rw [hb]
    exact hfix i j _ _ hj hi hv

/-- The variables handed out are different from each other and from the added ones. -/
structure FreshFor (fresh : Nat → V) (vars : List V) (n : Nat) : Prop where
  distinct : ∀ i < n, ∀ j < n, fresh i = fresh j → i = j
  new : ∀ i < n, fresh i ∉ vars

/-- **The clauses leave exactly the assignments with at most one true variable.** -/
theorem Tracked.exact (h : Tracked fresh added t log) (hfresh : FreshFor fresh added log.allocated)
    (τ : V → Bool) :
    (∃ σ : V → Bool, (∀ v ∈ added, σ v = τ v) ∧ ∀ c ∈ log.clauses, Fixes σ c) ↔ AtMostOne τ added := by
  constructor
  · rintro ⟨σ, hσ, hall⟩ v hv w hw hvτ hwτ
    have hone := ((h.toRecords.fixes_iff σ).mp hall).atMostOne h.capacity
    exact hone v ((h.mem v).mpr hv) w ((h.mem w).mpr hw) ((hσ v hv).trans hvτ) ((hσ w hw).trans hwτ)
  · intro hone
    -- every helper takes its bit of the true variable
    let bit : Nat → Bool := fun i => t.vars.zipIdx.any fun x => τ x.1 && x.2.testBit i
    let σ : V → Bool := fun v =>
      if v ∈ added then τ v else (List.range log.allocated).any fun i => fresh i = v && bit i
    have hadded : ∀ v ∈ added, σ v = τ v := fun v hv => if_pos hv
    refine ⟨σ, hadded, (h.toRecords.fixes_iff σ).mpr ?_⟩
    have hσ : ∀ v ∈ t.vars, σ v = τ v := fun v hv => hadded v ((h.mem v).mp hv)
    have hone' : AtMostOne σ t.vars := by
      intro v hv w hw hvσ hwσ
      exact hone v ((h.mem v).mp hv) w ((h.mem w).mp hw) ((hσ v hv).symm.trans hvσ)
        ((hσ w hw).symm.trans hwσ)
    refine hone'.fixesBits h.nodup fun i g hi => ?_
    rw [h.helpers, List.getElem?_map, Option.map_eq_some_iff] at hi
    obtain ⟨k, hk, rfl⟩ := hi
    obtain ⟨hlt, hki⟩ := List.getElem?_eq_some_iff.mp hk
    rw [List.length_range] at hlt
    rw [List.getElem_range] at hki
    subst hki
    have hvalue : σ (fresh i) = bit i := by
      show (if fresh i ∈ added then _ else _) = bit i
      rw [if_neg (hfresh.new i hlt)]
      cases hb : bit i with
      | true =>
          refine List.any_eq_true.mpr ⟨i, List.mem_range.mpr hlt, ?_⟩
          simp [hb]
      | false =>
          refine List.any_eq_false.mpr fun j hj hcon => ?_
          simp only [Bool.and_eq_true, decide_eq_true_eq] at hcon
          rw [hfresh.distinct j (List.mem_range.mp hj) i hlt hcon.1, hb] at hcon
          exact absurd hcon.2 Bool.false_ne_true
    rw [hvalue]
    show (t.vars.zipIdx.any _ = true) ↔ _
    rw [List.any_eq_true]
    constructor
    · rintro ⟨⟨v, j⟩, hx, hand⟩
      have hj := List.mem_zipIdx_iff_getElem?.mp hx
      obtain ⟨hv, hb⟩ := Bool.and_eq_true_iff.mp hand
      exact ⟨j, v, hj, (hσ v (List.mem_of_getElem? hj)).trans hv, hb⟩
    · rintro ⟨j, v, hj, hv, hb⟩
      refine ⟨(v, j), List.mem_zipIdx_iff_getElem?.mpr hj, Bool.and_eq_true_iff.mpr ⟨?_, hb⟩⟩
      exact (hσ v (List.mem_of_getElem? hj)).symm.trans hv

theorem Tracked.length (h : Tracked fresh added t log) : t.vars.length = added.dedup.length :=
  ((List.perm_ext_iff_of_nodup h.nodup (List.nodup_dedup added)).mpr fun v => by
    rw [h.mem, List.mem_dedup]).length_eq

theorem Tracked.isLeast (h : Tracked fresh added t log) :
    IsLeast {h | added.dedup.length ≤ 2 ^ h} t.helpers.length := by
  rw [← h.length]
  exact ⟨h.capacity, fun k hk => h.least k hk⟩

/-- A prefix allocates no more variables. -/
theorem addAll_allocated_le {vars pre : List V} (hpre : pre <+: vars) :
    (addAll fresh pre).2.allocated ≤ (addAll fresh vars).2.allocated := by
  have hp := addAll_tracked fresh pre
  have hv := addAll_tracked fresh vars
  have hlen : ∀ {vars : List V}, Tracked fresh vars (addAll fresh vars).1 (addAll fresh vars).2 →
      (addAll fresh vars).1.helpers.length = (addAll fresh vars).2.allocated := by
    intro vars h
    rw [h.helpers, List.length_map, List.length_range]
  rw [← hlen hp, ← hlen hv]
  refine hp.least _ (Nat.le_trans ?_ hv.capacity)
  rw [hp.length, hv.length]
  refine (List.nodup_dedup pre).subperm (fun v hm => ?_) |>.length_le
  exact List.mem_dedup.mpr (hpre.subset (List.mem_dedup.mp hm))

/-- **The incremental at-most-one encoding is exact**, after every prefix of a sequence of calls: the
    clauses allow exactly the assignments with at most one true variable, a call returns whether the
    variable is new, and the number of helpers is the least one that tells the variables apart. -/
theorem addAll_exact (fresh : Nat → V) (vars pre : List V) (hpre : pre <+: vars)
    (hfresh : FreshFor fresh vars (addAll fresh vars).2.allocated) :
    (∀ τ : V → Bool, (∃ σ : V → Bool, (∀ v ∈ pre, σ v = τ v) ∧
        ∀ c ∈ (addAll fresh pre).2.clauses, Fixes σ c) ↔ AtMostOne τ pre) ∧
    (∀ v, ((addAll fresh pre).1.add v Log.allocClause (Log.allocVar fresh) (addAll fresh pre).2).1 = true ↔
      v ∉ pre) ∧
    IsLeast {h | pre.dedup.length ≤ 2 ^ h} (addAll fresh pre).1.helpers.length := by
  have h := addAll_tracked fresh pre
  have hle : (addAll fresh pre).2.allocated ≤ (addAll fresh vars).2.allocated := addAll_allocated_le hpre
  refine ⟨fun τ => h.exact ⟨fun i hi j hj => ?_, fun i hi hm => ?_⟩ τ, fun v => ?_, h.isLeast⟩
  · exact hfresh.distinct i (hi.trans_le hle) j (hj.trans_le hle)
  · exact hfresh.new i (hi.trans_le hle) (hpre.subset hm)
  · rw [← h.mem]
    by_cases hv : v ∈ (addAll fresh pre).1.vars
    · rw [add_seen hv]
      exact ⟨fun hb => (by cases hb), fun hn => absurd hv hn⟩
    · exact ⟨fun _ => hv, fun _ => (h.add hv).1⟩

/-- Three variables, one of them twice, need two helpers. -/
theorem addAll_exact_three :
    (∀ τ : Nat → Bool, (∃ σ : Nat → Bool, (∀ v ∈ [1, 2, 1, 3], σ v = τ v) ∧
        ∀ c ∈ (addAll (· + 10) [1, 2, 1, 3]).2.clauses, Fixes σ c) ↔ AtMostOne τ [1, 2, 1, 3]) ∧
    (∀ v, ((addAll (· + 10) [1, 2, 1, 3]).1.add v Log.allocClause (Log.allocVar (· + 10))
        (addAll (· + 10) [1, 2, 1, 3]).2).1 = true ↔ v ∉ [1, 2, 1, 3]) ∧
    IsLeast {h | [1, 2, 1, 3].dedup.length ≤ 2 ^ h} (addAll (· + 10) [1, 2, 1, 3]).1.helpers.length :=
  addAll_exact (· + 10) [1, 2, 1, 3] [1, 2, 1, 3] (List.prefix_refl _)
    ⟨by decide, by decide⟩

end AtMostOnceTracker

end Resolvo
