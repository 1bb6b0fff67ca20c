import Resolvo.Correctness.Coverage

/-!
# `Correctness.Conditions` — a condition fires exactly when its expression is true

A condition is tested in two places: the encoder tests the disjuncts of its normal form when it reaches the
requirement, and the solver loop tests the deferred form of a disjunct after every propagation. Both tests
are compared here with the value of the expression tree, for any set of positively decided solvables.
-/

set_option linter.unusedSectionVars false

namespace Resolvo

variable {N S F : Type} [DecidableEq N] [DecidableEq S]

/-! ## The two tests of a disjunct -/

/-- The test of the encoder: every conjunct has a matching candidate that is decided. -/
def disjunctFires (P : DependencyProvider N S) (decided : S → Bool) (conjuncts : List VersionSetId) : Bool :=
  conjuncts.all fun vs => (P.matchingCandidates vs).any decided

/-- The form in which a disjunct is deferred. -/
def deferredForm (P : DependencyProvider N S) (conjuncts : List VersionSetId) :
    List (DeferredConjunct S) :=
  conjuncts.map fun vs =>
    match Encoder.complementOf P vs with
    | .solvables .. => .solvables vs (P.matchingCandidates vs)
    | .empty _ => .empty vs (P.matchingCandidates vs)

section Tests

variable (P : DependencyProvider N S) (decided : S → Bool)

/-- Both kinds of conjuncts store the matching candidates. -/
theorem deferredForm_candidates (conjuncts : List VersionSetId) :
    (deferredForm P conjuncts).map DeferredConjunct.candidates = conjuncts.map P.matchingCandidates := by
  unfold deferredForm
  rw [List.map_map]
  refine List.map_congr_left fun vs _ => ?_
  show DeferredConjunct.candidates (match Encoder.complementOf P vs with
    | .solvables .. => DeferredConjunct.solvables vs (P.matchingCandidates vs)
    | .empty _ => DeferredConjunct.empty vs (P.matchingCandidates vs)) = P.matchingCandidates vs
  split <;> rfl

/-- **The two tests agree** on every disjunct. -/
theorem conditionDisjunctHolds_deferred (conjuncts : List VersionSetId) :
    conditionDisjunctHolds (deferredForm P conjuncts) decided = disjunctFires P decided conjuncts := by
  have hall : ∀ disjunct : List (DeferredConjunct S), conditionDisjunctHolds disjunct decided =
      (disjunct.map DeferredConjunct.candidates).all fun candidates => candidates.any decided := by
    intro disjunct
    rw [List.all_map]
    rfl
  rw [hall, deferredForm_candidates, List.all_map]
  rfl

theorem disjunctFires_iff (conjuncts : List VersionSetId) :
    disjunctFires P decided conjuncts = true ↔
      ∀ vs ∈ conjuncts, ∃ x ∈ P.matchingCandidates vs, x ∈ {x | decided x = true} := by
  simp only [disjunctFires, List.all_eq_true, List.any_eq_true, Set.mem_ofPred_eq]

/-- The expression is true if and only if a disjunct of its normal form fires. -/
theorem holds_iff_fires (tree : Condition) :
    tree.Holds P {x | decided x = true} ↔ ∃ conjuncts ∈ tree.toDnf, disjunctFires P decided conjuncts = true := by
  rw [Condition.holds_iff_toDnf]
  constructor
  · rintro ⟨conjuncts, hmem, h⟩
    exact ⟨conjuncts, hmem, (disjunctFires_iff P decided conjuncts).mpr h⟩
  · rintro ⟨conjuncts, hmem, h⟩
    exact ⟨conjuncts, hmem, (disjunctFires_iff P decided conjuncts).mp h⟩

end Tests

/-! ## What the encoder does with the disjuncts -/

namespace Encoder

variable {P : DependencyProvider N S}

/-- Fetching packages adds tasks and leaves what is deferred alone. -/
theorem queuePackages_pending (names : List N) (enc : Encoder N S F) :
    (names.foldl queuePackage enc).state.deferredRequirements = enc.state.deferredRequirements ∧
      ∃ packages : List N, (names.foldl queuePackage enc).pending = enc.pending ++ packages.map Task.candidates := by
  induction names generalizing enc with
  | nil => exact ⟨rfl, [], by simp⟩
  | cons name names ih =>
      obtain ⟨hdeferred, packages, hpending⟩ := ih (enc.queuePackage name)
      rw [List.foldl_cons]
      unfold queuePackage at hdeferred hpending ⊢
      split at hdeferred
      · next hmem =>
          rw [if_pos hmem] at hpending ⊢
          exact ⟨hdeferred, packages, hpending⟩
      · next hmem =>
          rw [if_neg hmem] at hpending ⊢
          refine ⟨hdeferred, name :: packages, ?_⟩
          rw [hpending, List.append_assoc]
          rfl

/-- Deferring disjuncts appends an entry for each of them under the condition. -/
theorem deferDisjuncts_deferred (p : SolvableIdOrRoot S) (r : ConditionalRequirement) (c : ConditionId)
    (dnf : List (List VersionSetId)) (enc : Encoder N S F) :
    (dnf.foldl (deferDisjunct P p r c) enc).pending = enc.pending ∧
      (dnf.foldl (deferDisjunct P p r c) enc).state.deferredRequirements.getD c [] =
        enc.state.deferredRequirements.getD c [] ++
          dnf.map fun conjuncts => ⟨p, r, c, deferredForm P conjuncts⟩ := by
  induction dnf generalizing enc with
  | nil => exact ⟨rfl, by simp⟩
  | cons conjuncts dnf ih =>
      obtain ⟨hpending, hdeferred⟩ := ih (deferDisjunct P p r c enc conjuncts)
      refine ⟨hpending, ?_⟩
      have hone : (deferDisjunct P p r c enc conjuncts).state.deferredRequirements.getD c [] =
          enc.state.deferredRequirements.getD c [] ++ [⟨p, r, c, deferredForm P conjuncts⟩] := by
        show (enc.state.deferredRequirements.insert c _).getD c [] = _
        rw [IndexMap.getD_insert, if_pos rfl]
        rfl
      rw [List.foldl_cons, hdeferred, hone, List.append_assoc]
      rfl

end Encoder

/-! ## The result -/

/-- **A condition fires exactly when its expression is true.** For every set of decided solvables the tree is
    true iff some disjunct passes the test of the encoder, and iff the deferred form of some disjunct holds;
    the two tests agree on every disjunct. The encoder defers the disjuncts that fail its test in this form
    and turns the others into a requirement. -/
theorem condition_fires_iff (P : DependencyProvider N S) :
    (∀ (tree : Condition) (decided : S → Bool),
      (tree.Holds P {x | decided x = true} ↔
        ∃ conjuncts ∈ tree.toDnf, disjunctFires P decided conjuncts = true) ∧
      (tree.Holds P {x | decided x = true} ↔
        ∃ conjuncts ∈ tree.toDnf, conditionDisjunctHolds (deferredForm P conjuncts) decided = true) ∧
      ∀ conjuncts ∈ tree.toDnf,
        disjunctFires P decided conjuncts = conditionDisjunctHolds (deferredForm P conjuncts) decided) ∧
    ∀ (enc : Encoder N S F) (p : SolvableIdOrRoot S) (r : ConditionalRequirement) (c : ConditionId),
      let dnf := (P.resolveCondition c).toDnf
      let fires := disjunctFires P enc.state.isPositivelyDecided
      let enc' := enc.onConditionDataAvailable P p r c
      enc'.state.deferredRequirements.getD c [] = enc.state.deferredRequirements.getD c [] ++
          (dnf.filter fun conjuncts => !fires conjuncts).map
            (fun conjuncts => ⟨p, r, c, deferredForm P conjuncts⟩) ∧
        ∃ packages : List N, enc'.pending = enc.pending ++ packages.map Task.candidates ++
          if (dnf.filter fires).isEmpty then []
          else [.requirementCandidates p r (some (c,
            (dnf.filter fires).map fun conjuncts => conjuncts.map (Encoder.complementOf P)))] := by
  refine ⟨fun tree decided => ⟨holds_iff_fires P decided tree, ?_, ?_⟩, ?_⟩
  · rw [holds_iff_fires P decided tree]
    constructor
    · rintro ⟨conjuncts, hmem, h⟩
      exact ⟨conjuncts, hmem, (conditionDisjunctHolds_deferred P decided conjuncts).trans h⟩
    · rintro ⟨conjuncts, hmem, h⟩
      exact ⟨conjuncts, hmem, (conditionDisjunctHolds_deferred P decided conjuncts).symm.trans h⟩
  · intro conjuncts _
    exact (conditionDisjunctHolds_deferred P decided conjuncts).symm
  · intro enc p r c
    have heq := onConditionDataAvailable_eq (P := P) enc p r c
    have hfires : firesNow P enc.state = disjunctFires P enc.state.isPositivelyDecided := rfl
    rw [hfires] at heq
    dsimp only at heq ⊢
    obtain ⟨hpending, hdeferred⟩ := Encoder.deferDisjuncts_deferred (P := P) p r c
      ((P.resolveCondition c).toDnf.filter fun conjuncts =>
        !disjunctFires P enc.state.isPositivelyDecided conjuncts) enc
    rw [heq]
    generalize List.foldl (Encoder.deferDisjunct P p r c) enc _ = e at hpending hdeferred ⊢
    split
    · exact ⟨hdeferred, [], by rw [hpending]; simp⟩
    · obtain ⟨hsame, packages, hpackages⟩ := Encoder.queuePackages_pending
        ((r.requirement.versionSets P).map P.versionSetName) e
      refine ⟨?_, packages, ?_⟩
      · show (List.foldl Encoder.queuePackage e _).state.deferredRequirements.getD c [] = _
        rw [hsame, hdeferred]
      · show (List.foldl Encoder.queuePackage e _).pending ++ [_] = _
        rw [hpackages, hpending]

end Resolvo
