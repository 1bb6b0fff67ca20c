import Resolvo.Correctness.Mapping
import Resolvo.Lib.Fold
import Resolvo.Model.Snapshot

/-!
# `Correctness.Snapshot` — what a capture records, and that it is closed under references

The walk keeps a set of visited elements whose values are recorded and whose successors have been seen.
When the queue is empty, the visited elements are exactly what is reachable from the start, so every id in
a recorded value is recorded itself, and no chain of queries ends in a missing element.
-/

namespace Resolvo

namespace Snapshot

variable {P : Provider} {h : HashOrder}

/-! ## What the walk goes through -/

namespace Provider

variable (P : Provider)

/-- The elements a conditional requirement refers to. -/
def requirementElements (requirement : ConditionalRequirement) : List Element :=
  (requirement.condition.map Element.condition).toList ++
    match requirement.requirement with
    | .single versionSet => [.versionSet versionSet]
    | .union u => (P.versionSetsInUnion u).map .versionSet

def dependencyElements : Dependencies → List Element
  | .unknown reason => [.string reason]
  | .known deps => deps.constrains.map .versionSet ++ deps.requirements.flatMap P.requirementElements

def conditionElements : Condition → List Element
  | .requirement versionSet => [.versionSet versionSet]
  | .binary _ lhs rhs => [.condition lhs, .condition rhs]

/-- The elements an element refers to. -/
def successors : Element → List Element
  | .package name =>
      (P.candidatesOf name).candidates.map .solvable ++
        (P.candidatesOf name).excluded.flatMap fun (excluded, reason) =>
          [.solvable excluded, .string reason]
  | .solvable id => .package (P.solvableName id) :: P.dependencyElements (P.getDependencies id)
  | .string _ => []
  | .versionSet id => .package (P.versionSetName id) :: (P.matchingCandidates id).map .solvable
  | .condition id => conditionElements (P.resolveCondition id)

/-- The unions among some requirements. -/
def requirementUnions (requirements : List ConditionalRequirement) : List VersionSetUnionId :=
  requirements.filterMap fun requirement =>
    match requirement.requirement with
    | .single _ => none
    | .union u => some u

def dependencyUnions : Dependencies → List VersionSetUnionId
  | .unknown _ => []
  | .known deps => requirementUnions deps.requirements

/-- The unions an element refers to. -/
def unions : Element → List VersionSetUnionId
  | .solvable id => dependencyUnions (P.getDependencies id)
  | _ => []

def packageOf (name : NameId) : Package where
  name := P.displayName name
  solvables := (P.candidatesOf name).candidates
  excluded := (P.candidatesOf name).excluded

/-- What is recorded for a solvable. Its dependencies were requested just before, so the cache always
    says that they are available. -/
def solvableOf (id : SolvableId) (order : Nat) : Solvable where
  display := P.displaySolvable id
  name := P.solvableName id
  order := order
  dependencies := P.getDependencies id
  hintDependenciesAvailable := true

def versionSetOf (id : VersionSetId) : VersionSet where
  name := P.versionSetName id
  display := P.displayVersionSet id
  matchingCandidates := (P.matchingCandidates id).toFinset

end Provider

/-- A snapshot records the elements of a set, each with the value the provider gives it, and the unions
    they refer to. -/
structure Records (P : Provider) (h : HashOrder) (order : SolvableId → Nat) (result : DependencySnapshot)
    (done : Set Element) : Prop where
  packages : ∀ n p, result.packages.get n = some p ↔ .package n ∈ done ∧ p = P.packageOf n
  solvables : ∀ s v, result.solvables.get s = some v ↔ .solvable s ∈ done ∧ v = P.solvableOf s (order s)
  strings : ∀ i v, result.strings.get i = some v ↔ .string i ∈ done ∧ v = P.displayString i
  versionSets : ∀ i v, result.versionSets.get i = some v ↔ .versionSet i ∈ done ∧ v = P.versionSetOf i
  conditions : ∀ i v, result.conditions.get i = some v ↔ .condition i ∈ done ∧ v = P.resolveCondition i
  unions : ∀ u l, result.versionSetUnions.get u = some l ↔
    (∃ e ∈ done, u ∈ P.unions e) ∧ l = h.order u (P.versionSetsInUnion u)
  packages_wf : result.packages.WF
  versionSets_wf : result.versionSets.WF

/-! ## Enqueueing -/

/-- The elements are seen, and those that were not seen before are queued; nothing else changes. -/
structure Grown (st st' : Capture) (es : List Element) : Prop where
  seen : ∀ e, e ∈ st'.seen ↔ e ∈ st.seen ∨ e ∈ es
  queue : ∀ e, e ∈ st'.queue ↔ e ∈ st.queue ∨ e ∈ es ∧ e ∉ st.seen

theorem Grown.refl (st : Capture) : Grown st st [] where
  seen e := by simp
  queue e := by simp

theorem Grown.trans {st st₁ st₂ : Capture} {es es' : List Element} (h₁ : Grown st st₁ es)
    (h₂ : Grown st₁ st₂ es') : Grown st st₂ (es ++ es') where
  seen e := by
    rw [h₂.seen, h₁.seen, List.mem_append]
    tauto
  queue e := by
    rw [h₂.queue, h₁.queue, h₁.seen, List.mem_append]
    tauto

/-- Grown depends on the seen and the queued elements alone. -/
theorem Grown.congr {st st' st₁ st₁' : Capture} {es : List Element} (h : Grown st st' es)
    (hseen : st₁.seen = st.seen) (hqueue : st₁.queue = st.queue) (hseen' : st₁'.seen = st'.seen)
    (hqueue' : st₁'.queue = st'.queue) : Grown st₁ st₁' es where
  seen e := by
    rw [hseen', hseen]
    exact h.seen e
  queue e := by
    rw [hqueue', hqueue, hseen]
    exact h.queue e

namespace Capture

theorem enqueue_result (st : Capture) (e : Element) : (st.enqueue e).result = st.result := by
  unfold enqueue
  split <;> rfl

theorem enqueue_cache (st : Capture) (e : Element) : (st.enqueue e).cache = st.cache := by
  unfold enqueue
  split <;> rfl

theorem enqueue_grown (st : Capture) (e : Element) : Grown st (st.enqueue e) [e] := by
  unfold enqueue
  split
  · rename_i hseen
    refine ⟨fun e' => ?_, fun e' => ?_⟩
    · constructor
      · exact .inl
      · rintro (h | h)
        · exact h
        · rw [List.mem_singleton.mp h]
          exact hseen
    · constructor
      · exact .inl
      · rintro (h | ⟨h, hnot⟩)
        · exact h
        · rw [List.mem_singleton.mp h] at hnot
          exact absurd hseen hnot
  · rename_i hnot
    refine ⟨fun e' => ?_, fun e' => ?_⟩
    · simp only [Finset.mem_insert, List.mem_singleton]
      tauto
    · simp only [List.mem_append, List.mem_singleton]
      constructor
      · rintro (h | rfl)
        · exact .inl h
        · exact .inr ⟨rfl, hnot⟩
      · rintro (h | ⟨rfl, -⟩)
        · exact .inl h
        · exact .inr rfl

theorem enqueueAll_result (st : Capture) (es : List Element) : (st.enqueueAll es).result = st.result := by
  unfold enqueueAll
  induction es generalizing st with
  | nil => rfl
  | cons e es ih => rw [List.foldl_cons, ih, enqueue_result]

theorem enqueueAll_cache (st : Capture) (es : List Element) : (st.enqueueAll es).cache = st.cache := by
  unfold enqueueAll
  induction es generalizing st with
  | nil => rfl
  | cons e es ih => rw [List.foldl_cons, ih, enqueue_cache]

theorem enqueueAll_grown (st : Capture) (es : List Element) : Grown st (st.enqueueAll es) es := by
  unfold enqueueAll
  induction es generalizing st with
  | nil => exact .refl st
  | cons e es ih => exact (enqueue_grown st e).trans (ih (st.enqueue e))

variable (P : Provider) (h : HashOrder)

/-- The unions of some requirements are recorded, the others as they were. -/
structure UnionsAdded (st st' : Capture) (us : List VersionSetUnionId) : Prop where
  result : st'.result
    = { st.result with versionSetUnions := st'.result.versionSetUnions }
  cache : st'.cache = st.cache
  get : ∀ u, st'.result.versionSetUnions.get u
    = if u ∈ us then some (h.order u (P.versionSetsInUnion u)) else st.result.versionSetUnions.get u

variable {P h}

theorem UnionsAdded.nil (st : Capture) : UnionsAdded P h st st [] where
  result := rfl
  cache := rfl
  get u := by simp

theorem UnionsAdded.congr {st st' st₁ : Capture} {us : List VersionSetUnionId}
    (hadded : UnionsAdded P h st st' us) (hresult : st₁.result = st.result)
    (hcache : st₁.cache = st.cache) : UnionsAdded P h st₁ st' us where
  result := by
    rw [hresult]
    exact hadded.result
  cache := hadded.cache.trans hcache.symm
  get u := by
    rw [hresult]
    exact hadded.get u

theorem UnionsAdded.trans {st st₁ st₂ : Capture} {us us' : List VersionSetUnionId}
    (h₁ : UnionsAdded P h st st₁ us) (h₂ : UnionsAdded P h st₁ st₂ us') :
    UnionsAdded P h st st₂ (us ++ us') where
  result := by
    rw [h₂.result, h₁.result]
  cache := h₂.cache.trans h₁.cache
  get u := by
    rw [h₂.get, h₁.get]
    by_cases hu' : u ∈ us'
    · simp [hu']
    · simp [hu']

theorem enqueueCondition_spec (st : Capture) (condition : Option ConditionId) :
    Grown st (st.enqueueCondition condition) (condition.map Element.condition).toList ∧
      (st.enqueueCondition condition).result = st.result ∧
      (st.enqueueCondition condition).cache = st.cache := by
  cases condition with
  | none => exact ⟨.refl st, rfl, rfl⟩
  | some c => exact ⟨enqueue_grown _ _, enqueue_result _ _, enqueue_cache _ _⟩

theorem enqueueOperands_spec (st : Capture) (condition : Condition) :
    Grown st (st.enqueueOperands condition) (Provider.conditionElements condition) ∧
      (st.enqueueOperands condition).result = st.result := by
  cases condition with
  | requirement versionSet => exact ⟨enqueue_grown _ _, enqueue_result _ _⟩
  | binary op lhs rhs => exact ⟨enqueueAll_grown _ _, enqueueAll_result _ _⟩

theorem visitRequirement_spec (st : Capture) (requirement : ConditionalRequirement) :
    Grown st (visitRequirement P h st requirement) (P.requirementElements requirement) ∧
      UnionsAdded P h st (visitRequirement P h st requirement)
        (Provider.requirementUnions [requirement]) := by
  obtain ⟨condition, requirement⟩ := requirement
  obtain ⟨hgrown, hresult, hcache⟩ := enqueueCondition_spec st condition
  unfold visitRequirement Provider.requirementElements Provider.requirementUnions
  dsimp only
  generalize st.enqueueCondition condition = st₁ at hgrown hresult hcache ⊢
  cases requirement with
  | single versionSet =>
    refine ⟨hgrown.trans (enqueue_grown st₁ _), ?_⟩
    exact (UnionsAdded.nil (st₁.enqueue (.versionSet versionSet))).congr
      (hresult.symm.trans (enqueue_result _ _).symm) (hcache.symm.trans (enqueue_cache _ _).symm)
  | union u =>
    have hmem : ∀ e, e ∈ (h.order u (P.versionSetsInUnion u)).map Element.versionSet
        ↔ e ∈ (P.versionSetsInUnion u).map Element.versionSet := by
      intro e
      simp only [List.mem_map, h.mem_iff]
    have hall := enqueueAll_grown st₁ ((h.order u (P.versionSetsInUnion u)).map .versionSet)
    refine ⟨hgrown.trans ⟨fun e => ?_, fun e => ?_⟩, ?_, ?_, ?_⟩
    · rw [← hmem]
      exact hall.seen e
    · rw [← hmem]
      exact hall.queue e
    · dsimp only
      rw [enqueueAll_result, hresult]
    · dsimp only
      rw [enqueueAll_cache, hcache]
    · intro u'
      dsimp only
      rw [enqueueAll_result, hresult, Mapping.get_insert]
      by_cases hu : u' = u
      · subst hu
        simp
      · simp [hu]

theorem visitRequirements_spec (requirements : List ConditionalRequirement) (st : Capture) :
    Grown st (requirements.foldl (visitRequirement P h) st)
        (requirements.flatMap P.requirementElements) ∧
      UnionsAdded P h st (requirements.foldl (visitRequirement P h) st)
        (Provider.requirementUnions requirements) := by
  induction requirements generalizing st with
  | nil => exact ⟨.refl st, .nil st⟩
  | cons requirement requirements ih =>
    obtain ⟨hgrown, hadded⟩ := visitRequirement_spec (P := P) (h := h) st requirement
    obtain ⟨hgrown', hadded'⟩ := ih (visitRequirement P h st requirement)
    refine ⟨?_, ?_⟩
    · exact hgrown.trans hgrown'
    · have hunions : Provider.requirementUnions (requirement :: requirements)
          = Provider.requirementUnions [requirement] ++ Provider.requirementUnions requirements := by
        unfold Provider.requirementUnions
        rw [← List.filterMap_append]
        rfl
      rw [hunions]
      exact hadded.trans hadded'

theorem visitDependencies_spec (st : Capture) (dependencies : Dependencies) :
    Grown st (visitDependencies P h st dependencies) (P.dependencyElements dependencies) ∧
      UnionsAdded P h st (visitDependencies P h st dependencies)
        (Provider.dependencyUnions dependencies) := by
  cases dependencies with
  | unknown reason =>
    refine ⟨enqueue_grown st _, ?_⟩
    exact (UnionsAdded.nil (st.enqueue (.string reason))).congr (enqueue_result _ _).symm
      (enqueue_cache _ _).symm
  | known deps =>
    obtain ⟨hgrown, hadded⟩ := visitRequirements_spec (P := P) (h := h) deps.requirements
      (st.enqueueAll (deps.constrains.map .versionSet))
    refine ⟨(enqueueAll_grown st _).trans hgrown, ?_⟩
    exact hadded.congr (enqueueAll_result _ _).symm (enqueueAll_cache _ _).symm

end Capture

/-! ## Recording -/

section Recording

variable {V : Type} {m : Mapping Nat V} {done : Set Element} {mk : Nat → Element} {value : Nat → V}

/-- Inserting the value of an id records the element of that id. -/
theorem recorded_insert (hinj : ∀ i j, mk i = mk j → i = j)
    (hm : ∀ i v, m.get i = some v ↔ mk i ∈ done ∧ v = value i) (k i : Nat) (v : V) :
    (m.insert k (value k)).2.get i = some v ↔ mk i ∈ insert (mk k) done ∧ v = value i := by
  rw [Mapping.get_insert]
  by_cases hi : i = k
  · subst hi
    simp [eq_comm]
  · have hne : mk i ≠ mk k := fun heq => hi (hinj _ _ heq)
    rw [if_neg hi, hm, Set.mem_insert_iff]
    simp [hne]

/-- Visiting an element of another kind records nothing here. -/
theorem recorded_of_ne {e : Element} (hne : ∀ i, mk i ≠ e)
    (hm : ∀ i v, m.get i = some v ↔ mk i ∈ done ∧ v = value i) (i : Nat) (v : V) :
    m.get i = some v ↔ mk i ∈ insert e done ∧ v = value i := by
  rw [hm, Set.mem_insert_iff]
  simp [hne i]

end Recording

namespace Records

variable {result : DependencySnapshot} {done : Set Element} {order : SolvableId → Nat}

/-- Visiting an element without unions leaves the unions recorded. -/
theorem unions_insert (hr : Records P h order result done) {e : Element} (he : P.unions e = [])
    (u : VersionSetUnionId) (l : List VersionSetId) : result.versionSetUnions.get u = some l ↔
      (∃ e' ∈ insert e done, u ∈ P.unions e') ∧ l = h.order u (P.versionSetsInUnion u) := by
  rw [hr.unions]
  simp [he]

theorem empty : Records P h order {} ∅ where
  packages n p := by simp
  solvables s v := by simp
  strings i v := by simp
  versionSets i v := by simp
  conditions i v := by simp
  unions u l := by simp
  packages_wf := Mapping.new_wf
  versionSets_wf := Mapping.new_wf

theorem addPackage (hr : Records P h order result done) (n : NameId) :
    Records P h order { result with packages := (result.packages.insert n (P.packageOf n)).2 }
      (insert (.package n) done) where
  packages := recorded_insert (fun _ _ heq => Element.package.inj heq) hr.packages n
  solvables s v := by
    rw [hr.solvables]
    simp
  strings := recorded_of_ne (fun _ => by simp) hr.strings
  versionSets := recorded_of_ne (fun _ => by simp) hr.versionSets
  conditions := recorded_of_ne (fun _ => by simp) hr.conditions
  unions := hr.unions_insert rfl
  packages_wf := hr.packages_wf.insert _ _
  versionSets_wf := hr.versionSets_wf

theorem addString (hr : Records P h order result done) (i : StringId) :
    Records P h order { result with strings := (result.strings.insert i (P.displayString i)).2 }
      (insert (.string i) done) where
  packages := recorded_of_ne (fun _ => by simp) hr.packages
  solvables s v := by
    rw [hr.solvables]
    simp
  strings := recorded_insert (fun _ _ heq => Element.string.inj heq) hr.strings i
  versionSets := recorded_of_ne (fun _ => by simp) hr.versionSets
  conditions := recorded_of_ne (fun _ => by simp) hr.conditions
  unions := hr.unions_insert rfl
  packages_wf := hr.packages_wf
  versionSets_wf := hr.versionSets_wf

theorem addVersionSet (hr : Records P h order result done) (i : VersionSetId) :
    Records P h order { result with versionSets := (result.versionSets.insert i (P.versionSetOf i)).2 }
      (insert (.versionSet i) done) where
  packages := recorded_of_ne (fun _ => by simp) hr.packages
  solvables s v := by
    rw [hr.solvables]
    simp
  strings := recorded_of_ne (fun _ => by simp) hr.strings
  versionSets := recorded_insert (fun _ _ heq => Element.versionSet.inj heq) hr.versionSets i
  conditions := recorded_of_ne (fun _ => by simp) hr.conditions
  unions := hr.unions_insert rfl
  packages_wf := hr.packages_wf
  versionSets_wf := hr.versionSets_wf.insert _ _

theorem addCondition (hr : Records P h order result done) (i : ConditionId) :
    Records P h order { result with conditions := (result.conditions.insert i (P.resolveCondition i)).2 }
      (insert (.condition i) done) where
  packages := recorded_of_ne (fun _ => by simp) hr.packages
  solvables s v := by
    rw [hr.solvables]
    simp
  strings := recorded_of_ne (fun _ => by simp) hr.strings
  versionSets := recorded_of_ne (fun _ => by simp) hr.versionSets
  conditions := recorded_insert (fun _ _ heq => Element.condition.inj heq) hr.conditions i
  unions := hr.unions_insert rfl
  packages_wf := hr.packages_wf
  versionSets_wf := hr.versionSets_wf

/-- A solvable is recorded together with the unions of its requirements. -/
theorem addSolvable (hr : Records P h order result done) (s : SolvableId)
    {unions : Mapping VersionSetUnionId (List VersionSetId)}
    (hunions : ∀ u, unions.get u = if u ∈ P.unions (.solvable s) then
      some (h.order u (P.versionSetsInUnion u)) else result.versionSetUnions.get u) :
    Records P h order
      { result with
        versionSetUnions := unions
        solvables := (result.solvables.insert s (P.solvableOf s (order s))).2 }
      (insert (.solvable s) done) where
  packages := recorded_of_ne (fun _ => by simp) hr.packages
  solvables := by
    have hinsert := recorded_insert (fun _ _ heq => Element.solvable.inj heq) hr.solvables s
    exact hinsert
  strings := recorded_of_ne (fun _ => by simp) hr.strings
  versionSets := recorded_of_ne (fun _ => by simp) hr.versionSets
  conditions := recorded_of_ne (fun _ => by simp) hr.conditions
  unions u l := by
    show unions.get u = some l ↔ _
    rw [hunions]
    by_cases hu : u ∈ P.unions (.solvable s)
    · simp [hu, eq_comm]
    · rw [if_neg hu, hr.unions]
      simp [hu]
  packages_wf := hr.packages_wf
  versionSets_wf := hr.versionSets_wf

end Records

/-- **Visiting an element** records it and queues the elements it refers to that were not seen. -/
theorem visit_spec (st : Capture) (e : Element) {done : Set Element}
    (hr : Records P h (fun _ => 0) st.result done) :
    Grown st (st.visit P h e) (P.successors e) ∧
      Records P h (fun _ => 0) (st.visit P h e).result (insert e done) := by
  cases e with
  | package n =>
    refine ⟨?_, ?_⟩
    · refine Grown.congr (((Capture.enqueueAll_grown
        { st with cache := st.cache.getOrCacheCandidates P n } _).trans
        (Capture.enqueueAll_grown _ _))) rfl rfl rfl rfl
    · show Records P h _ (Capture.visitPackage P st n).result _
      unfold Capture.visitPackage
      dsimp only
      rw [Capture.enqueueAll_result, Capture.enqueueAll_result]
      exact hr.addPackage n
  | string i =>
    refine ⟨.congr (.refl st) rfl rfl rfl rfl, hr.addString i⟩
  | versionSet i =>
    refine ⟨?_, ?_⟩
    · exact Grown.congr ((Capture.enqueue_grown st (.package (P.versionSetName i))).trans (Grown.congr
        (Capture.enqueueAll_grown { st.enqueue (.package (P.versionSetName i)) with
          cache := (st.enqueue (.package (P.versionSetName i))).cache.getOrCacheCandidates P
            (P.versionSetName i) } _) rfl rfl rfl rfl)) rfl rfl rfl rfl
    · show Records P h _ (Capture.visitVersionSet P st i).result _
      unfold Capture.visitVersionSet
      dsimp only
      rw [Capture.enqueueAll_result]
      dsimp only
      rw [Capture.enqueue_result]
      exact hr.addVersionSet i
  | condition i =>
    obtain ⟨hgrown, hresult⟩ := Capture.enqueueOperands_spec st (P.resolveCondition i)
    refine ⟨.congr hgrown rfl rfl rfl rfl, ?_⟩
    show Records P h _ (Capture.visitCondition P st i).result _
    unfold Capture.visitCondition
    dsimp only
    rw [hresult]
    exact hr.addCondition i
  | solvable s =>
    have hpackage := Capture.enqueue_grown st (.package (P.solvableName s))
    have hresult := Capture.enqueue_result st (.package (P.solvableName s))
    obtain ⟨st₁, hst₁⟩ : ∃ st₁, st₁ = { st.enqueue (.package (P.solvableName s)) with
      cache := (st.enqueue (.package (P.solvableName s))).cache.getOrCacheDependencies s } := ⟨_, rfl⟩
    obtain ⟨hgrown, hadded⟩ := Capture.visitDependencies_spec (P := P) (h := h) st₁ (P.getDependencies s)
    have havailable :
        (Capture.visitDependencies P h st₁ (P.getDependencies s)).cache.areDependenciesAvailableFor s
          = true := by
      rw [hadded.cache, hst₁]
      unfold Cache.areDependenciesAvailableFor Cache.getOrCacheDependencies
      simp
    have hvisit : st.visit P h (.solvable s) = Capture.visitSolvable P h st s := rfl
    have hunions := hadded.get
    have hfields := hadded.result
    rw [hvisit]
    unfold Capture.visitSolvable
    dsimp only
    rw [← hst₁, havailable]
    refine ⟨.congr (hpackage.trans (.congr hgrown ?_ ?_ rfl rfl)) rfl rfl rfl rfl, ?_⟩
    · rw [hst₁]
    · rw [hst₁]
    · have hst₁Result : st₁.result = st.result := by
        rw [hst₁]
        exact hresult
      rw [hst₁Result] at hunions hfields
      rw [hfields]
      exact hr.addSolvable s hunions

/-! ## The walk -/

/-- The elements a capture starts from. -/
def startElements (names : List NameId) (versionSets : List VersionSetId) (solvables : List SolvableId) :
    List Element :=
  names.map .package ++ versionSets.map .versionSet ++ solvables.map .solvable

/-- What is reachable from the start through references. -/
def Reached (P : Provider) (start : List Element) : Set Element :=
  {e | ∃ e₀ ∈ start, Relation.ReflTransGen (fun a b => b ∈ P.successors a) e₀ e}

/-- The invariant of the walk: what was visited is recorded, and what it refers to is seen. -/
structure Walked (P : Provider) (h : HashOrder) (start : List Element) (st : Capture)
    (done : Set Element) : Prop where
  records : Records P h (fun _ => 0) st.result done
  seen : ∀ e, e ∈ st.seen ↔ e ∈ done ∨ e ∈ st.queue
  closed : ∀ e ∈ done, ∀ e' ∈ P.successors e, e' ∈ st.seen
  starts : ∀ e ∈ start, e ∈ st.seen
  reached : ∀ e ∈ st.seen, e ∈ Reached P start

theorem Walked.init (start : List Element) :
    Walked P h start { queue := start, seen := start.toFinset } ∅ where
  records := .empty
  seen e := by simp
  closed e he := by cases he
  starts e he := by simpa using he
  reached e he := ⟨e, by simpa using he, .refl⟩

/-- Visiting the front of the queue keeps the invariant. -/
theorem Walked.visit {start : List Element} {st : Capture} {done : Set Element} {e : Element}
    {queue : List Element} (hw : Walked P h start st done) (hqueue : st.queue = e :: queue) :
    Walked P h start ({ st with queue := queue }.visit P h e) (insert e done) := by
  obtain ⟨hgrown, hrecords⟩ := visit_spec { st with queue := queue } e hw.records
  have hseen : ∀ e', e' ∈ ({ st with queue := queue }.visit P h e).seen ↔
      e' ∈ st.seen ∨ e' ∈ P.successors e := hgrown.seen
  have hqueue' : ∀ e', e' ∈ ({ st with queue := queue }.visit P h e).queue ↔
      e' ∈ queue ∨ e' ∈ P.successors e ∧ e' ∉ st.seen := hgrown.queue
  have hfront : e ∈ st.seen := (hw.seen e).mpr (.inr (by rw [hqueue]; exact List.mem_cons_self))
  refine ⟨hrecords, ?_, ?_, ?_, ?_⟩
  · intro e'
    have hold := hw.seen e'
    rw [hqueue, List.mem_cons] at hold
    rw [hseen, hqueue', Set.mem_insert_iff]
    by_cases he' : e' ∈ st.seen
    · have hcases := hold.mp he'
      tauto
    · have hnot := fun hc => he' (hold.mpr hc)
      tauto
  · intro e' he' e'' he''
    rw [hseen]
    rcases Set.mem_insert_iff.mp he' with rfl | he'
    · exact .inr he''
    · exact .inl (hw.closed e' he' e'' he'')
  · intro e' he'
    rw [hseen]
    exact .inl (hw.starts e' he')
  · intro e' he'
    rcases (hseen e').mp he' with he' | he'
    · exact hw.reached e' he'
    · obtain ⟨e₀, he₀, hpath⟩ := hw.reached e hfront
      exact ⟨e₀, he₀, hpath.tail he'⟩

theorem Walked.capture {start : List Element} {cancel : Nat → Bool} {fuel k : Nat} {st st' : Capture}
    {done : Set Element} (hw : Walked P h start st done)
    (hok : capture P h cancel fuel k st = some (.ok st')) :
    ∃ done', Walked P h start st' done' ∧ st'.queue = [] := by
  induction fuel generalizing k st done with
  | zero => cases hok
  | succ fuel ih =>
    unfold Snapshot.capture at hok
    cases hqueue : st.queue with
    | nil =>
      rw [hqueue] at hok
      cases hok
      exact ⟨done, hw, hqueue⟩
    | cons e queue =>
      rw [hqueue] at hok
      dsimp only at hok
      split at hok
      · cases hok
      · exact ih (hw.visit hqueue) hok

/-- When the queue is empty, exactly what is reachable was visited. -/
theorem Walked.done_eq {start : List Element} {st : Capture} {done : Set Element}
    (hw : Walked P h start st done) (hqueue : st.queue = []) : done = Reached P start := by
  have hseen : ∀ e, e ∈ st.seen ↔ e ∈ done := by
    intro e
    rw [hw.seen, hqueue]
    simp
  refine Set.Subset.antisymm ?_ ?_
  · intro e he
    exact hw.reached e ((hseen e).mpr he)
  · rintro e ⟨e₀, he₀, hpath⟩
    induction hpath with
    | refl => exact (hseen e₀).mp (hw.starts e₀ he₀)
    | tail _ hstep ih => exact (hseen _).mp (hw.closed _ ih _ hstep)

/-! ## The pass over the orders -/

/-- The orders after some assignments. -/
def assigned (order : SolvableId → Nat) (assignments : List (SolvableId × Nat)) : SolvableId → Nat :=
  assignments.foldl (fun order entry => Function.update order entry.1 entry.2) order

/-- The orders after the pass: the packages an iteration yields, one after the other. -/
def orderOf (P : Provider) (packages : Mapping NameId Package) : SolvableId → Nat :=
  packages.iter.foldl
    (fun order (entry : NameId × Package) =>
      assigned order (P.sortCandidates entry.2.solvables).zipIdx)
    fun _ => 0

theorem assign_spec {done : Set Element} (assignments : List (SolvableId × Nat))
    {m m' : Mapping SolvableId Solvable} {order : SolvableId → Nat}
    (hm : ∀ s v, m.get s = some v ↔ .solvable s ∈ done ∧ v = P.solvableOf s (order s))
    (hassign : assignments.foldlM (fun solvables (entry : SolvableId × Nat) =>
      solvables.modify entry.1 fun solvable => { solvable with order := entry.2 }) m = some m') :
    ∀ s v, m'.get s = some v ↔
      .solvable s ∈ done ∧ v = P.solvableOf s (assigned order assignments s) := by
  induction assignments generalizing m order with
  | nil =>
    cases hassign
    exact hm
  | cons entry assignments ih =>
    obtain ⟨id, o⟩ := entry
    rw [List.foldlM_cons] at hassign
    obtain ⟨m₁, hmodify, hrest⟩ := Option.bind_eq_some_iff.mp hassign
    suffices hstep : ∀ s v, m₁.get s = some v ↔
        .solvable s ∈ done ∧ v = P.solvableOf s (Function.update order id o s) from ih hstep hrest
    intro s v
    rw [Mapping.get_modify hmodify]
    by_cases hs : s = id
    · subst hs
      rw [if_pos rfl, Function.update_self, Option.map_eq_some_iff]
      constructor
      · rintro ⟨v', hv', rfl⟩
        obtain ⟨hdone, rfl⟩ := (hm s v').mp hv'
        exact ⟨hdone, rfl⟩
      · rintro ⟨hdone, rfl⟩
        exact ⟨_, (hm s _).mpr ⟨hdone, rfl⟩, rfl⟩
    · rw [if_neg hs, Function.update_of_ne hs]
      exact hm s v

theorem assignOrders_spec {result result' : DependencySnapshot} {done : Set Element}
    (hr : Records P h (fun _ => 0) result done) (hassign : assignOrders P result = some result') :
    Records P h (orderOf P result.packages) result' done ∧ result'.packages = result.packages ∧
      result'.versionSets = result.versionSets := by
  unfold assignOrders at hassign
  rw [Option.map_eq_some_iff] at hassign
  obtain ⟨solvables, hfold, rfl⟩ := hassign
  have hall : ∀ (packages : List (NameId × Package)) (m m' : Mapping SolvableId Solvable)
      (order : SolvableId → Nat),
      (∀ s v, m.get s = some v ↔ .solvable s ∈ done ∧ v = P.solvableOf s (order s)) →
      packages.foldlM (fun solvables (entry : NameId × Package) => assignOrder P solvables entry.2) m
        = some m' →
      ∀ s v, m'.get s = some v ↔ .solvable s ∈ done ∧ v = P.solvableOf s
        (packages.foldl (fun order (entry : NameId × Package) =>
          assigned order (P.sortCandidates entry.2.solvables).zipIdx) order s) := by
    intro packages
    induction packages with
    | nil =>
      intro m m' order hm hfold
      cases hfold
      exact hm
    | cons entry packages ih =>
      intro m m' order hm hfold
      rw [List.foldlM_cons] at hfold
      obtain ⟨m₁, hfirst, hrest⟩ := Option.bind_eq_some_iff.mp hfold
      exact ih m₁ m' _ (assign_spec _ hm hfirst) hrest
  refine ⟨?_, rfl, rfl⟩
  exact
    { packages := hr.packages
      solvables := hall _ _ _ _ hr.solvables hfold
      strings := hr.strings
      versionSets := hr.versionSets
      conditions := hr.conditions
      unions := hr.unions
      packages_wf := hr.packages_wf
      versionSets_wf := hr.versionSets_wf }

/-- **What a capture records**: exactly what is reachable from the start, each with the value the provider
    gives it. -/
theorem fromProvider_spec {cancel : Nat → Bool} {fuel : Nat} {names : List NameId}
    {versionSets : List VersionSetId} {solvables : List SolvableId} {snapshot : DependencySnapshot}
    (hok : fromProvider P h cancel fuel names versionSets solvables = some (.ok snapshot)) :
    Records P h (orderOf P snapshot.packages) snapshot
      (Reached P (startElements names versionSets solvables)) := by
  unfold fromProvider at hok
  rw [Option.map_eq_some_iff] at hok
  obtain ⟨outcome, hcapture, houtcome⟩ := hok
  cases outcome with
  | error e => cases houtcome
  | ok st =>
    dsimp only at houtcome
    cases hassign : assignOrders P st.result with
    | none =>
      rw [hassign] at houtcome
      cases houtcome
    | some result =>
      rw [hassign] at houtcome
      cases houtcome
      obtain ⟨done, hw, hqueue⟩ :=
        (Walked.init (P := P) (h := h) (startElements names versionSets solvables)).capture hcapture
      obtain ⟨hrecords, hpackages, -⟩ := assignOrders_spec hw.records hassign
      rw [hw.done_eq hqueue] at hrecords
      rw [hpackages]
      exact hrecords

/-! ## References -/

/-- The ids of a snapshot. -/
inductive Id where
  | solvable (id : SolvableId)
  | versionSet (id : VersionSetId)
  | package (id : NameId)
  | string (id : StringId)
  | condition (id : ConditionId)
  | union (id : VersionSetUnionId)

/-- The id has an entry in the mapping of its kind. -/
def Present (snapshot : DependencySnapshot) : Id → Prop
  | .solvable id => (snapshot.solvables.get id).isSome
  | .versionSet id => (snapshot.versionSets.get id).isSome
  | .package id => (snapshot.packages.get id).isSome
  | .string id => (snapshot.strings.get id).isSome
  | .condition id => (snapshot.conditions.get id).isSome
  | .union id => (snapshot.versionSetUnions.get id).isSome

/-- The ids in some dependencies. -/
inductive DependencyId : Dependencies → Id → Prop
  | unknown (reason : StringId) : DependencyId (.unknown reason) (.string reason)
  | constrains {deps : KnownDependencies} {v : VersionSetId} (hv : v ∈ deps.constrains) :
      DependencyId (.known deps) (.versionSet v)
  | condition {deps : KnownDependencies} {requirement : ConditionalRequirement} {c : ConditionId}
      (hr : requirement ∈ deps.requirements) (hc : requirement.condition = some c) :
      DependencyId (.known deps) (.condition c)
  | single {deps : KnownDependencies} {requirement : ConditionalRequirement} {v : VersionSetId}
      (hr : requirement ∈ deps.requirements) (hv : requirement.requirement = .single v) :
      DependencyId (.known deps) (.versionSet v)
  | union {deps : KnownDependencies} {requirement : ConditionalRequirement} {u : VersionSetUnionId}
      (hr : requirement ∈ deps.requirements) (hu : requirement.requirement = .union u) :
      DependencyId (.known deps) (.union u)

/-- The ids in a condition. -/
inductive ConditionIds : Condition → Id → Prop
  | requirement (v : VersionSetId) : ConditionIds (.requirement v) (.versionSet v)
  | lhs (op : LogicalOperator) (lhs rhs : ConditionId) : ConditionIds (.binary op lhs rhs) (.condition lhs)
  | rhs (op : LogicalOperator) (lhs rhs : ConditionId) : ConditionIds (.binary op lhs rhs) (.condition rhs)

/-- The id occurs somewhere in a value of the snapshot. -/
inductive Mentions (snapshot : DependencySnapshot) : Id → Prop
  | candidate {n : NameId} {p : Package} {s : SolvableId} (hp : snapshot.packages.get n = some p)
      (hs : s ∈ p.solvables) : Mentions snapshot (.solvable s)
  | excluded {n : NameId} {p : Package} {s : SolvableId} {reason : StringId}
      (hp : snapshot.packages.get n = some p) (hs : (s, reason) ∈ p.excluded) :
      Mentions snapshot (.solvable s)
  | excludeReason {n : NameId} {p : Package} {s : SolvableId} {reason : StringId}
      (hp : snapshot.packages.get n = some p) (hs : (s, reason) ∈ p.excluded) :
      Mentions snapshot (.string reason)
  | solvableName {s : SolvableId} {v : Solvable} (hv : snapshot.solvables.get s = some v) :
      Mentions snapshot (.package v.name)
  | dependency {s : SolvableId} {v : Solvable} {i : Id} (hv : snapshot.solvables.get s = some v)
      (hi : DependencyId v.dependencies i) : Mentions snapshot i
  | versionSetName {v : VersionSetId} {vs : VersionSet} (hv : snapshot.versionSets.get v = some vs) :
      Mentions snapshot (.package vs.name)
  | matching {v : VersionSetId} {vs : VersionSet} {s : SolvableId}
      (hv : snapshot.versionSets.get v = some vs) (hs : s ∈ vs.matchingCandidates) :
      Mentions snapshot (.solvable s)
  | member {u : VersionSetUnionId} {l : List VersionSetId} {v : VersionSetId}
      (hu : snapshot.versionSetUnions.get u = some l) (hv : v ∈ l) : Mentions snapshot (.versionSet v)
  | operand {c : ConditionId} {condition : Condition} {i : Id}
      (hc : snapshot.conditions.get c = some condition) (hi : ConditionIds condition i) :
      Mentions snapshot i

/-- The element of an id; a union is no element of its own. -/
def Id.element : Id → Option Element
  | .solvable id => some (.solvable id)
  | .versionSet id => some (.versionSet id)
  | .package id => some (.package id)
  | .string id => some (.string id)
  | .condition id => some (.condition id)
  | .union _ => none

namespace Records

variable {order : SolvableId → Nat} {snapshot : DependencySnapshot} {done : Set Element}

/-- A visited element is present. -/
theorem present (hr : Records P h order snapshot done) {i : Id} {e : Element} (hi : i.element = some e)
    (he : e ∈ done) : Present snapshot i := by
  cases i with
  | solvable s =>
    cases hi
    exact Option.isSome_iff_exists.mpr ⟨_, (hr.solvables s _).mpr ⟨he, rfl⟩⟩
  | versionSet v =>
    cases hi
    exact Option.isSome_iff_exists.mpr ⟨_, (hr.versionSets v _).mpr ⟨he, rfl⟩⟩
  | package n =>
    cases hi
    exact Option.isSome_iff_exists.mpr ⟨_, (hr.packages n _).mpr ⟨he, rfl⟩⟩
  | string i =>
    cases hi
    exact Option.isSome_iff_exists.mpr ⟨_, (hr.strings i _).mpr ⟨he, rfl⟩⟩
  | condition c =>
    cases hi
    exact Option.isSome_iff_exists.mpr ⟨_, (hr.conditions c _).mpr ⟨he, rfl⟩⟩
  | union u => cases hi

/-- A union a visited element refers to is present. -/
theorem present_union (hr : Records P h order snapshot done) {e : Element} {u : VersionSetUnionId}
    (he : e ∈ done) (hu : u ∈ P.unions e) : Present snapshot (.union u) :=
  Option.isSome_iff_exists.mpr ⟨_, (hr.unions u _).mpr ⟨⟨e, he, hu⟩, rfl⟩⟩

end Records

theorem mem_requirementUnions {requirements : List ConditionalRequirement}
    {requirement : ConditionalRequirement} {u : VersionSetUnionId} (hr : requirement ∈ requirements)
    (hu : requirement.requirement = .union u) : u ∈ Provider.requirementUnions requirements := by
  unfold Provider.requirementUnions
  rw [List.mem_filterMap]
  exact ⟨requirement, hr, by rw [hu]⟩

/-- An id in the dependencies is an element the solvable refers to, or one of its unions. -/
theorem DependencyId.cases_element {deps : Dependencies} {i : Id} (hi : DependencyId deps i) :
    (∃ e, i.element = some e ∧ e ∈ P.dependencyElements deps) ∨
      ∃ u, i = .union u ∧ u ∈ Provider.dependencyUnions deps := by
  cases hi with
  | unknown reason => exact .inl ⟨_, rfl, List.mem_singleton.mpr rfl⟩
  | constrains hv => exact .inl ⟨_, rfl, List.mem_append_left _ (List.mem_map_of_mem hv)⟩
  | condition hr hc =>
    refine .inl ⟨_, rfl, List.mem_append_right _ (List.mem_flatMap.mpr ⟨_, hr, ?_⟩)⟩
    unfold Provider.requirementElements
    rw [hc]
    exact List.mem_append_left _ (List.mem_singleton.mpr rfl)
  | single hr hv =>
    refine .inl ⟨_, rfl, List.mem_append_right _ (List.mem_flatMap.mpr ⟨_, hr, ?_⟩)⟩
    unfold Provider.requirementElements
    rw [hv]
    exact List.mem_append_right _ (List.mem_singleton.mpr rfl)
  | union hr hu => exact .inr ⟨_, rfl, mem_requirementUnions hr hu⟩

theorem ConditionIds.exists_element {condition : Condition} {i : Id} (hi : ConditionIds condition i) :
    ∃ e, i.element = some e ∧ e ∈ Provider.conditionElements condition := by
  cases hi with
  | requirement v => exact ⟨_, rfl, List.mem_singleton.mpr rfl⟩
  | lhs op lhs rhs => exact ⟨_, rfl, List.mem_cons_self⟩
  | rhs op lhs rhs => exact ⟨_, rfl, List.mem_cons_of_mem _ (List.mem_singleton.mpr rfl)⟩

/-- The members of a union that an element refers to are elements it refers to. -/
theorem mem_successors_of_union {e : Element} {u : VersionSetUnionId} {v : VersionSetId}
    (hu : u ∈ P.unions e) (hv : v ∈ P.versionSetsInUnion u) : Element.versionSet v ∈ P.successors e := by
  cases e with
  | solvable s =>
    have hu' : u ∈ Provider.dependencyUnions (P.getDependencies s) := hu
    refine List.mem_cons_of_mem _ ?_
    cases hdeps : P.getDependencies s with
    | unknown reason =>
      rw [hdeps] at hu'
      cases hu'
    | known deps =>
      rw [hdeps] at hu'
      obtain ⟨requirement, hr, hmatch⟩ := List.mem_filterMap.mp hu'
      refine List.mem_append_right _ (List.mem_flatMap.mpr ⟨requirement, hr, ?_⟩)
      unfold Provider.requirementElements
      split at hmatch
      · cases hmatch
      · rename_i u' hu'
        cases hmatch
        exact List.mem_append_right _ (List.mem_map_of_mem hv)
  | _ => cases hu

/-- **A capture is closed under references**: every id in a value is present. -/
theorem Records.closed {order : SolvableId → Nat} {snapshot : DependencySnapshot} {start : List Element}
    (hr : Records P h order snapshot (Reached P start)) {i : Id} (hi : Mentions snapshot i) :
    Present snapshot i := by
  have hstep : ∀ {e e' : Element}, e ∈ Reached P start → e' ∈ P.successors e → e' ∈ Reached P start := by
    rintro e e' ⟨e₀, he₀, hpath⟩ he'
    exact ⟨e₀, he₀, hpath.tail he'⟩
  cases hi with
  | candidate hp hs =>
    obtain ⟨hn, rfl⟩ := (hr.packages _ _).mp hp
    exact hr.present rfl (hstep hn (List.mem_append_left _ (List.mem_map_of_mem hs)))
  | excluded hp hs =>
    obtain ⟨hn, rfl⟩ := (hr.packages _ _).mp hp
    refine hr.present rfl (hstep hn (List.mem_append_right _ (List.mem_flatMap.mpr ⟨_, hs, ?_⟩)))
    exact List.mem_cons_self
  | excludeReason hp hs =>
    obtain ⟨hn, rfl⟩ := (hr.packages _ _).mp hp
    refine hr.present rfl (hstep hn (List.mem_append_right _ (List.mem_flatMap.mpr ⟨_, hs, ?_⟩)))
    exact List.mem_cons_of_mem _ (List.mem_singleton.mpr rfl)
  | solvableName hv =>
    obtain ⟨hs, rfl⟩ := (hr.solvables _ _).mp hv
    exact hr.present rfl (hstep hs List.mem_cons_self)
  | dependency hv hi =>
    obtain ⟨hs, rfl⟩ := (hr.solvables _ _).mp hv
    rcases hi.cases_element (P := P) with ⟨e, he, hmem⟩ | ⟨u, rfl, hu⟩
    · exact hr.present he (hstep hs (List.mem_cons_of_mem _ hmem))
    · exact hr.present_union hs hu
  | versionSetName hv =>
    obtain ⟨hvs, rfl⟩ := (hr.versionSets _ _).mp hv
    exact hr.present rfl (hstep hvs List.mem_cons_self)
  | matching hv hs =>
    obtain ⟨hvs, rfl⟩ := (hr.versionSets _ _).mp hv
    refine hr.present rfl (hstep hvs (List.mem_cons_of_mem _ (List.mem_map_of_mem ?_)))
    exact List.mem_toFinset.mp hs
  | member hu hv =>
    obtain ⟨⟨e, he, hue⟩, rfl⟩ := (hr.unions _ _).mp hu
    exact hr.present rfl (hstep he (mem_successors_of_union hue ((h.mem_iff _ _ _).mp hv)))
  | operand hc hi =>
    obtain ⟨hcond, rfl⟩ := (hr.conditions _ _).mp hc
    obtain ⟨e, he, hmem⟩ := hi.exists_element
    exact hr.present he (hstep hcond hmem)

end Snapshot

end Resolvo
