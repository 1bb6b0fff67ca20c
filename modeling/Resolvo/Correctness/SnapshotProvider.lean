import Resolvo.Correctness.Snapshot

/-!
# `Correctness.SnapshotProvider` — no chain of queries ends in a missing element

A `SnapshotProvider` answers from a snapshot and from the version sets added to it. The ids of added version
sets lie above every captured one, so neither hides the other. Ids that are captured, were returned by
`addPackageRequirement`, or occur in an answer about such ids are all answered, and each resolves to what
it was created for.
-/

namespace Resolvo

open Snapshot

namespace SnapshotProvider

variable {P : Provider} {h : HashOrder} {snapshot : DependencySnapshot} {sp sp' : SnapshotProvider}

/-- A requirement that was added: the id returned for it, its package and its matcher. -/
structure Addition where
  id : VersionSetId
  name : NameId
  matcher : String

/-- The providers made from a snapshot by adding requirements. -/
inductive Extends (snapshot : DependencySnapshot) : SnapshotProvider → List Addition → Prop
  | new : Extends snapshot { snapshot := snapshot } []
  | add {sp sp' : SnapshotProvider} {added : List Addition} {id : VersionSetId} {name : NameId}
      {matcher : String} (hsp : Extends snapshot sp added)
      (hadd : sp.addPackageRequirement name matcher = some (id, sp')) :
      Extends snapshot sp' (added ++ [⟨id, name, matcher⟩])

/-- The ids a caller can hold: captured ones, those of added requirements, and those in the answers to
    queries about ids it holds. -/
inductive Known (sp : SnapshotProvider) (added : List Addition) : Id → Prop
  | captured {i : Id} (hi : Present sp.snapshot i) : Known sp added i
  | added {a : Addition} (ha : a ∈ added) : Known sp added (.versionSet a.id)
  | solvableName {s : SolvableId} {n : NameId} (hs : Known sp added (.solvable s))
      (hn : sp.solvableName s = some n) : Known sp added (.package n)
  | dependency {s : SolvableId} {deps : Dependencies} {i : Id} (hs : Known sp added (.solvable s))
      (hdeps : sp.getDependencies s = some deps) (hi : DependencyId deps i) : Known sp added i
  | candidate {n : NameId} {c : Candidates SolvableId} {s : SolvableId}
      (hn : Known sp added (.package n)) (hc : sp.getCandidates n = some c) (hs : s ∈ c.candidates) :
      Known sp added (.solvable s)
  | hinted {n : NameId} {c : Candidates SolvableId} {s : SolvableId} (hn : Known sp added (.package n))
      (hc : sp.getCandidates n = some c) (hs : s ∈ hinted c) : Known sp added (.solvable s)
  | excluded {n : NameId} {c : Candidates SolvableId} {s : SolvableId} {reason : StringId}
      (hn : Known sp added (.package n)) (hc : sp.getCandidates n = some c)
      (hs : (s, reason) ∈ c.excluded) : Known sp added (.solvable s)
  | excludeReason {n : NameId} {c : Candidates SolvableId} {s : SolvableId} {reason : StringId}
      (hn : Known sp added (.package n)) (hc : sp.getCandidates n = some c)
      (hs : (s, reason) ∈ c.excluded) : Known sp added (.string reason)
  | versionSetName {v : VersionSetId} {n : NameId} (hv : Known sp added (.versionSet v))
      (hn : sp.versionSetName v = some n) : Known sp added (.package n)
  | filtered {l l' : List SolvableId} {v : VersionSetId} {inverse : Bool} {s : SolvableId}
      (hl : ∀ s ∈ l, Known sp added (.solvable s)) (hv : Known sp added (.versionSet v))
      (hl' : sp.filterCandidates l v inverse = some l') (hs : s ∈ l') : Known sp added (.solvable s)
  | sorted {l l' : List SolvableId} {s : SolvableId} (hl : ∀ s ∈ l, Known sp added (.solvable s))
      (hl' : sp.sortCandidates l = some l') (hs : s ∈ l') : Known sp added (.solvable s)
  | member {u : VersionSetUnionId} {l : List VersionSetId} {v : VersionSetId}
      (hu : Known sp added (.union u)) (hl : sp.versionSetsInUnion u = some l) (hv : v ∈ l) :
      Known sp added (.versionSet v)
  | operand {c : ConditionId} {condition : Snapshot.Condition} {i : Id}
      (hc : Known sp added (.condition c)) (hcondition : sp.resolveCondition c = some condition)
      (hi : ConditionIds condition i) : Known sp added i

/-- No query about the id panics. -/
def Answers (sp : SnapshotProvider) : Id → Prop
  | .solvable s =>
      (sp.displaySolvable s).isSome ∧ (sp.solvableName s).isSome ∧ (sp.getDependencies s).isSome
  | .versionSet v =>
      (sp.displayVersionSet v).isSome ∧ (sp.versionSetName v).isSome ∧
        ∀ l inverse, (sp.filterCandidates l v inverse).isSome
  | .package n =>
      (sp.displayName n).isSome ∧ (sp.getCandidates n).isSome ∧
        ∀ matcher, (sp.addPackageRequirement n matcher).isSome
  | .string i => (sp.displayString i).isSome
  | .condition c => (sp.resolveCondition c).isSome
  | .union u => (sp.versionSetsInUnion u).isSome

/-- The answers about a captured id are those of the element it was captured for. -/
def Resolves (P : Provider) (sp : SnapshotProvider) : Id → Prop
  | .solvable s =>
      sp.displaySolvable s = some (P.displaySolvable s) ∧ sp.solvableName s = some (P.solvableName s) ∧
        sp.getDependencies s = some (P.getDependencies s)
  | .versionSet v =>
      sp.displayVersionSet v = some (P.displayVersionSet v) ∧
        sp.versionSetName v = some (P.versionSetName v) ∧
        ∀ l inverse, sp.filterCandidates l v inverse
          = some (l.filter fun s => decide (s ∈ P.matchingCandidates v) != inverse)
  | .package n =>
      sp.displayName n = some (P.displayName n) ∧
        ∃ c, sp.getCandidates n = some c ∧ c.candidates = (P.candidatesOf n).candidates ∧
          c.excluded = (P.candidatesOf n).excluded
  | .string i => sp.displayString i = some (P.displayString i)
  | .condition c => sp.resolveCondition c = some (P.resolveCondition c)
  | .union u => ∃ l, sp.versionSetsInUnion u = some l ∧ l.Nodup ∧ ∀ v, v ∈ l ↔ v ∈ P.versionSetsInUnion u

/-- Whether the display of a solvable is accepted by a matcher. -/
def MatcherAccepts (P : Provider) (matcher : String) (s : SolvableId) : Prop :=
  matcher = "*" ∨ matcher.toList <:+: (P.displaySolvable s).toList

/-- The answers about an added id are those of the requirement it was returned for. -/
def ResolvesAdded (P : Provider) (sp : SnapshotProvider) (a : Addition) : Prop :=
  sp.displayVersionSet a.id = some a.matcher ∧ sp.versionSetName a.id = some a.name ∧
    ∀ l inverse, ∃ l', sp.filterCandidates l a.id inverse = some l' ∧
      ∀ s, s ∈ l' ↔ s ∈ l ∧
        ((s ∈ (P.candidatesOf a.name).candidates ∧ MatcherAccepts P a.matcher s) ↔ inverse = false)

/-! ## Captured ids -/

section Captured

variable {order : SolvableId → Nat} {start : List Element}

theorem solvable_of_present (hr : Records P h order sp.snapshot (Reached P start)) {s : SolvableId}
    (hs : Present sp.snapshot (.solvable s)) : sp.solvable s = some (P.solvableOf s (order s)) := by
  obtain ⟨v, hv⟩ := Option.isSome_iff_exists.mp hs
  obtain ⟨-, rfl⟩ := (hr.solvables s v).mp hv
  exact hv

theorem package_of_present (hr : Records P h order sp.snapshot (Reached P start)) {n : NameId}
    (hn : Present sp.snapshot (.package n)) : sp.package n = some (P.packageOf n) := by
  obtain ⟨p, hp⟩ := Option.isSome_iff_exists.mp hn
  obtain ⟨-, rfl⟩ := (hr.packages n p).mp hp
  exact hp

/-- A captured version set is not hidden by the added ones. -/
theorem versionSet_of_present (hr : Records P h order sp.snapshot (Reached P start)) {v : VersionSetId}
    (hv : Present sp.snapshot (.versionSet v)) : sp.versionSet v = some (P.versionSetOf v) := by
  obtain ⟨vs, hvs⟩ := Option.isSome_iff_exists.mp hv
  obtain ⟨-, rfl⟩ := (hr.versionSets v vs).mp hvs
  have hle := hr.versionSets_wf.le_max hvs
  unfold versionSet
  dsimp only
  rw [if_neg (Nat.not_lt.mpr hle)]
  exact hvs

/-- The candidates of a captured package are captured. -/
theorem present_of_candidate (hr : Records P h order sp.snapshot (Reached P start)) {n : NameId}
    (hn : Present sp.snapshot (.package n)) {s : SolvableId} (hs : s ∈ (P.candidatesOf n).candidates) :
    Present sp.snapshot (.solvable s) :=
  hr.closed (.candidate (package_of_present hr hn) hs)

/-- Every candidate of a captured package is hinted, for its dependencies were requested by the capture. -/
theorem getCandidates_of_present (hr : Records P h order sp.snapshot (Reached P start)) {n : NameId}
    (hn : Present sp.snapshot (.package n)) : sp.getCandidates n = some
      { candidates := (P.candidatesOf n).candidates
        excluded := (P.candidatesOf n).excluded
        hintDependenciesAvailable := .some (P.candidatesOf n).candidates } := by
  unfold getCandidates
  rw [package_of_present hr hn]
  have hfilter : (P.packageOf n).solvables.filterM
      (fun s => (sp.solvable s).map (·.hintDependenciesAvailable)) = some (P.candidatesOf n).candidates := by
    have hall := List.filterM_eq_some (l := (P.packageOf n).solvables)
      (f := fun s => (sp.solvable s).map (·.hintDependenciesAvailable)) (g := fun _ => true) fun s hs => by
        rw [solvable_of_present hr (present_of_candidate hr hn hs)]
        rfl
    rw [hall, List.filter_true]
    rfl
  simp only [Option.bind_eq_bind, Option.bind_some, hfilter]
  rfl

theorem filterCandidates_of_present (hr : Records P h order sp.snapshot (Reached P start))
    {v : VersionSetId} (hv : Present sp.snapshot (.versionSet v)) (l : List SolvableId) (inverse : Bool) :
    sp.filterCandidates l v inverse
      = some (l.filter fun s => decide (s ∈ P.matchingCandidates v) != inverse) := by
  unfold filterCandidates
  rw [versionSet_of_present hr hv]
  show some (l.filter fun c => decide (c ∈ (P.matchingCandidates v).toFinset) != inverse) = _
  simp only [List.mem_toFinset]

/-- The matching candidates of an added requirement. -/
theorem accepted_of_present (hr : Records P h order sp.snapshot (Reached P start)) {n : NameId}
    (hn : Present sp.snapshot (.package n)) (matcher : String) :
    ∃ l, (P.packageOf n).solvables.filterM (sp.accepts matcher) = some l ∧
      ∀ s, s ∈ l ↔ s ∈ (P.candidatesOf n).candidates ∧ MatcherAccepts P matcher s := by
  classical
  have hall := List.filterM_eq_some (l := (P.packageOf n).solvables) (f := sp.accepts matcher)
    (g := fun s => decide (MatcherAccepts P matcher s)) fun s hs => by
      unfold accepts MatcherAccepts
      by_cases hmatcher : matcher = "*"
      · simp [hmatcher]
      · rw [if_neg hmatcher, solvable_of_present hr (present_of_candidate hr hn hs)]
        simp [hmatcher, Provider.solvableOf]
  refine ⟨_, hall, ?_⟩
  intro s
  rw [List.mem_filter, decide_eq_true_eq]
  exact Iff.rfl

theorem resolves_of_present (hr : Records P h order sp.snapshot (Reached P start)) {i : Id}
    (hi : Present sp.snapshot i) : Resolves P sp i := by
  cases i with
  | solvable s =>
    have hs := solvable_of_present hr hi
    show (sp.solvable s).map _ = _ ∧ (sp.solvable s).map _ = _ ∧ (sp.solvable s).map _ = _
    rw [hs]
    exact ⟨rfl, rfl, rfl⟩
  | versionSet v =>
    have hv := versionSet_of_present hr hi
    refine ⟨?_, ?_, fun l inverse => filterCandidates_of_present hr hi l inverse⟩
    · unfold displayVersionSet
      rw [hv]
      rfl
    · unfold versionSetName
      rw [hv]
      rfl
  | package n =>
    refine ⟨?_, _, getCandidates_of_present hr hi, rfl, rfl⟩
    unfold displayName
    rw [package_of_present hr hi]
    rfl
  | string i =>
    obtain ⟨v, hv⟩ := Option.isSome_iff_exists.mp hi
    obtain ⟨-, rfl⟩ := (hr.strings i v).mp hv
    exact hv
  | condition c =>
    obtain ⟨v, hv⟩ := Option.isSome_iff_exists.mp hi
    obtain ⟨-, rfl⟩ := (hr.conditions c v).mp hv
    exact hv
  | union u =>
    obtain ⟨l, hl⟩ := Option.isSome_iff_exists.mp hi
    obtain ⟨-, rfl⟩ := (hr.unions u l).mp hl
    exact ⟨_, hl, h.nodup u _, fun v => h.mem_iff u _ v⟩

end Captured

/-! ## Added ids -/

/-- What the added requirements left behind: the `k`-th one has the `k`-th id above the captured ones. -/
structure Holds (P : Provider) (snapshot : DependencySnapshot) (sp : SnapshotProvider)
    (added : List Addition) : Prop where
  same : sp.snapshot = snapshot
  length : sp.additionalVersionSets.length = added.length
  entry : ∀ k a, added[k]? = some a → a.id = snapshot.versionSets.max + 1 + k ∧
    Present snapshot (.package a.name) ∧
    ∃ v, sp.additionalVersionSets[k]? = some v ∧ v.name = a.name ∧ v.display = a.matcher ∧
      ∀ s, s ∈ v.matchingCandidates ↔
        s ∈ (P.candidatesOf a.name).candidates ∧ MatcherAccepts P a.matcher s

section Added

variable {order : SolvableId → Nat} {start : List Element} {added : List Addition}

/-- Adding a requirement for a captured package succeeds and appends it. -/
theorem addPackageRequirement_of_present (hr : Records P h order sp.snapshot (Reached P start))
    {n : NameId} (hn : Present sp.snapshot (.package n)) (matcher : String) :
    ∃ v, sp.addPackageRequirement n matcher
        = some (sp.snapshot.versionSets.max + 1 + sp.additionalVersionSets.length,
          { sp with additionalVersionSets := sp.additionalVersionSets ++ [v] }) ∧
      v.name = n ∧ v.display = matcher ∧
      ∀ s, s ∈ v.matchingCandidates ↔ s ∈ (P.candidatesOf n).candidates ∧ MatcherAccepts P matcher s := by
  obtain ⟨l, hl, hmem⟩ := accepted_of_present hr hn matcher
  refine ⟨{ name := n, display := matcher, matchingCandidates := l.toFinset }, ?_, rfl, rfl, ?_⟩
  · unfold addPackageRequirement
    rw [package_of_present hr hn]
    simp only [Option.bind_eq_bind, Option.bind_some, hl]
    rfl
  · intro s
    rw [List.mem_toFinset]
    exact hmem s

/-- A requirement is only added for a captured package. -/
theorem present_of_addPackageRequirement {n : NameId} {matcher : String} {id : VersionSetId}
    (hadd : sp.addPackageRequirement n matcher = some (id, sp')) : Present sp.snapshot (.package n) := by
  unfold addPackageRequirement at hadd
  cases hp : sp.package n with
  | none =>
    rw [hp] at hadd
    cases hadd
  | some p => exact Option.isSome_iff_exists.mpr ⟨p, hp⟩

theorem Extends.holds (hr : Records P h order snapshot (Reached P start))
    (hsp : Extends snapshot sp added) : Holds P snapshot sp added := by
  induction hsp with
  | new => exact ⟨rfl, rfl, fun k a ha => by simp at ha⟩
  | add hsp hadd ih =>
    rename_i sp sp' added id name matcher
    have hr' : Records P h order sp.snapshot (Reached P start) := by
      rw [ih.same]
      exact hr
    have hpresent := present_of_addPackageRequirement hadd
    obtain ⟨v, hv, hname, hdisplay, hmatching⟩ := addPackageRequirement_of_present hr' hpresent matcher
    rw [hv] at hadd
    cases hadd
    refine ⟨ih.same, ?_, ?_⟩
    · simp [ih.length]
    · intro k a ha
      by_cases hk : k < added.length
      · rw [List.getElem?_append_left hk] at ha
        obtain ⟨hid, hp, v', hv', hrest⟩ := ih.entry k a ha
        refine ⟨hid, hp, v', ?_, hrest⟩
        show (sp.additionalVersionSets ++ [v])[k]? = _
        rw [List.getElem?_append_left (by rw [ih.length]; exact hk)]
        exact hv'
      · rw [List.getElem?_append_right (Nat.le_of_not_lt hk)] at ha
        have hzero : k - added.length = 0 := by
          by_contra hne
          rw [List.getElem?_singleton, if_neg hne] at ha
          cases ha
        have heq : k = added.length := by omega
        subst heq
        rw [hzero] at ha
        cases ha
        rw [ih.same] at hpresent
        refine ⟨?_, hpresent, v, ?_, hname, hdisplay, hmatching⟩
        · show sp.snapshot.versionSets.max + 1 + sp.additionalVersionSets.length
            = snapshot.versionSets.max + 1 + added.length
          rw [ih.same, ih.length]
        · show (sp.additionalVersionSets ++ [v])[added.length]? = _
          rw [← ih.length, List.getElem?_concat_length]

/-- The id of an added requirement leads to it. -/
theorem Holds.versionSet (hh : Holds P snapshot sp added) {a : Addition} (ha : a ∈ added) :
    Present snapshot (.package a.name) ∧
    ∃ v, sp.versionSet a.id = some v ∧ v.name = a.name ∧ v.display = a.matcher ∧
      ∀ s, s ∈ v.matchingCandidates ↔
        s ∈ (P.candidatesOf a.name).candidates ∧ MatcherAccepts P a.matcher s := by
  obtain ⟨k, hk⟩ := List.mem_iff_getElem?.mp ha
  obtain ⟨hid, hp, v, hv, hrest⟩ := hh.entry k a hk
  refine ⟨hp, v, ?_, hrest⟩
  have hindex : a.id - snapshot.versionSets.max - 1 = k := by
    rw [hid, Nat.sub_sub, Nat.add_sub_cancel_left]
  have hlt : snapshot.versionSets.max < a.id := by
    rw [hid]
    exact Nat.lt_of_lt_of_le (Nat.lt_succ_self _) (Nat.le_add_right _ _)
  unfold SnapshotProvider.versionSet
  rw [hh.same]
  show (if snapshot.versionSets.max < a.id then
    sp.additionalVersionSets[a.id - snapshot.versionSets.max - 1]?
    else snapshot.versionSets.get a.id) = some v
  rw [if_pos hlt, hindex]
  exact hv

theorem Holds.resolvesAdded (hh : Holds P snapshot sp added) {a : Addition} (ha : a ∈ added) :
    ResolvesAdded P sp a := by
  obtain ⟨-, v, hv, hname, hdisplay, hmatching⟩ := hh.versionSet ha
  unfold ResolvesAdded displayVersionSet versionSetName filterCandidates
  rw [hv]
  refine ⟨congrArg some hdisplay, congrArg some hname, fun l inverse => ⟨_, rfl, fun s => ?_⟩⟩
  rw [List.mem_filter, ← hmatching]
  cases inverse with
  | false => simp
  | true => simp

end Added

/-! ## Ids a caller can hold -/

section Queries

variable {order : SolvableId → Nat} {start : List Element} {added : List Addition}

/-- Sorting only reorders. -/
theorem mem_of_sortCandidates {l l' : List SolvableId} (hl' : sp.sortCandidates l = some l')
    {s : SolvableId} (hs : s ∈ l') : s ∈ l := by
  unfold sortCandidates at hl'
  rw [Option.map_eq_some_iff] at hl'
  obtain ⟨keyed, hkeyed, rfl⟩ := hl'
  obtain ⟨entry, hentry, rfl⟩ := List.mem_map.mp hs
  rw [List.mem_insertionSort] at hentry
  obtain ⟨s, hmem, hsolvable⟩ := List.exists_of_mem_mapM hkeyed hentry
  rw [Option.map_eq_some_iff] at hsolvable
  obtain ⟨solvable, -, rfl⟩ := hsolvable
  exact hmem

/-- An id a caller holds is captured or was returned for an added requirement. -/
theorem Known.cases_present (hr : Records P h order snapshot (Reached P start))
    (hh : Holds P snapshot sp added) {i : Id} (hi : Known sp added i) :
    Present snapshot i ∨ ∃ a ∈ added, i = .versionSet a.id := by
  obtain rfl := hh.same
  have hsolvable : ∀ {s : SolvableId},
      (Present sp.snapshot (.solvable s) ∨ ∃ a ∈ added, Id.solvable s = .versionSet a.id) →
        Present sp.snapshot (.solvable s) := by
    rintro s (hs | ⟨a, -, ha⟩)
    · exact hs
    · cases ha
  have hpackage : ∀ {n : NameId} {c : Candidates SolvableId},
      (Present sp.snapshot (.package n) ∨ ∃ a ∈ added, Id.package n = .versionSet a.id) →
        sp.getCandidates n = some c → sp.package n = some (P.packageOf n) ∧
          c.candidates = (P.packageOf n).solvables ∧ c.excluded = (P.packageOf n).excluded ∧
          Snapshot.hinted c = (P.packageOf n).solvables := by
    rintro n c (hn | ⟨a, -, ha⟩) hc
    · rw [getCandidates_of_present hr hn] at hc
      cases hc
      exact ⟨package_of_present hr hn, rfl, rfl, rfl⟩
    · cases ha
  induction hi with
  | captured hi => exact .inl hi
  | added ha => exact .inr ⟨_, ha, rfl⟩
  | solvableName _ hn ih =>
    have hv := solvable_of_present hr (hsolvable ih)
    unfold SnapshotProvider.solvableName at hn
    rw [hv] at hn
    cases hn
    exact .inl (hr.closed (.solvableName hv))
  | dependency _ hdeps hi ih =>
    have hv := solvable_of_present hr (hsolvable ih)
    unfold getDependencies at hdeps
    rw [hv] at hdeps
    cases hdeps
    exact .inl (hr.closed (.dependency hv hi))
  | candidate _ hc hs ih =>
    obtain ⟨hp, hcandidates, -, -⟩ := hpackage ih hc
    rw [hcandidates] at hs
    exact .inl (hr.closed (.candidate hp hs))
  | hinted _ hc hs ih =>
    obtain ⟨hp, -, -, hhinted⟩ := hpackage ih hc
    rw [hhinted] at hs
    exact .inl (hr.closed (.candidate hp hs))
  | excluded _ hc hs ih =>
    obtain ⟨hp, -, hexcluded, -⟩ := hpackage ih hc
    rw [hexcluded] at hs
    exact .inl (hr.closed (.excluded hp hs))
  | excludeReason _ hc hs ih =>
    obtain ⟨hp, -, hexcluded, -⟩ := hpackage ih hc
    rw [hexcluded] at hs
    exact .inl (hr.closed (.excludeReason hp hs))
  | versionSetName _ hn ih =>
    unfold SnapshotProvider.versionSetName at hn
    rcases ih with hv | ⟨a, ha, heq⟩
    · have hvs := versionSet_of_present hr hv
      obtain ⟨vs, hget⟩ := Option.isSome_iff_exists.mp hv
      obtain ⟨-, rfl⟩ := (hr.versionSets _ vs).mp hget
      rw [hvs] at hn
      cases hn
      exact .inl (hr.closed (.versionSetName hget))
    · cases heq
      obtain ⟨hp, vs, hvs, hname, -⟩ := hh.versionSet ha
      rw [hvs] at hn
      cases hn
      show Present sp.snapshot (.package vs.name) ∨ _
      rw [hname]
      exact .inl hp
  | filtered _ _ hl' hs ihl _ =>
    unfold filterCandidates at hl'
    rw [Option.map_eq_some_iff] at hl'
    obtain ⟨vs, -, rfl⟩ := hl'
    exact ihl _ (List.mem_of_mem_filter hs)
  | sorted _ hl' hs ih => exact ih _ (mem_of_sortCandidates hl' hs)
  | member _ hl hv ih =>
    rcases ih with hu | ⟨a, -, ha⟩
    · exact .inl (hr.closed (.member hl hv))
    · cases ha
  | operand _ hcondition hi ih =>
    rcases ih with hc | ⟨a, -, ha⟩
    · exact .inl (hr.closed (.operand hcondition hi))
    · cases ha

/-- No query about an id a caller holds panics. -/
theorem Known.answers (hr : Records P h order snapshot (Reached P start))
    (hh : Holds P snapshot sp added) {i : Id} (hi : Known sp added i) : Answers sp i := by
  have hcases := hi.cases_present hr hh
  obtain rfl := hh.same
  rcases hcases with hpresent | ⟨a, ha, rfl⟩
  · have hresolves := resolves_of_present hr hpresent
    cases i with
    | solvable s =>
      obtain ⟨h₁, h₂, h₃⟩ := hresolves
      exact ⟨Option.isSome_of_eq_some h₁, Option.isSome_of_eq_some h₂, Option.isSome_of_eq_some h₃⟩
    | versionSet v =>
      obtain ⟨h₁, h₂, h₃⟩ := hresolves
      exact ⟨Option.isSome_of_eq_some h₁, Option.isSome_of_eq_some h₂,
        fun l inverse => Option.isSome_of_eq_some (h₃ l inverse)⟩
    | package n =>
      obtain ⟨h₁, c, h₂, -⟩ := hresolves
      refine ⟨Option.isSome_of_eq_some h₁, Option.isSome_of_eq_some h₂, fun matcher => ?_⟩
      obtain ⟨v, hv, -⟩ := addPackageRequirement_of_present hr hpresent matcher
      exact Option.isSome_of_eq_some hv
    | string i => exact Option.isSome_of_eq_some hresolves
    | condition c => exact Option.isSome_of_eq_some hresolves
    | union u =>
      obtain ⟨l, hl, -⟩ := hresolves
      exact Option.isSome_of_eq_some hl
  · obtain ⟨h₁, h₂, h₃⟩ := hh.resolvesAdded ha
    refine ⟨Option.isSome_of_eq_some h₁, Option.isSome_of_eq_some h₂, fun l inverse => ?_⟩
    obtain ⟨l', hl', -⟩ := h₃ l inverse
    exact Option.isSome_of_eq_some hl'

/-- Sorting solvables a caller holds does not panic. -/
theorem sortCandidates_isSome (hr : Records P h order snapshot (Reached P start))
    (hh : Holds P snapshot sp added) {l : List SolvableId}
    (hl : ∀ s ∈ l, Known sp added (.solvable s)) : (sp.sortCandidates l).isSome := by
  have hall := List.mapM_eq_some_map (l := l)
    (f := fun s => (sp.solvable s).map fun solvable => (s, solvable.order))
    (g := fun s => (s, order s)) fun s hs => by
      have hcases := (hl s hs).cases_present hr hh
      obtain rfl := hh.same
      rcases hcases with hpresent | ⟨a, -, ha⟩
      · rw [solvable_of_present hr hpresent]
        rfl
      · cases ha
  unfold sortCandidates
  rw [hall]
  rfl

/-- **A snapshot is closed under references.** Whatever provider and start, when the capture succeeds:
    every id in the snapshot is present in it, the start included; captured ids and the ids of any number
    of added requirements resolve to what they were created for; and no chain of queries that starts from
    such ids panics. -/
theorem fromProvider_closed {cancel : Nat → Bool} {fuel : Nat} {names : List NameId}
    {versionSets : List VersionSetId} {solvables : List SolvableId}
    (hok : fromProvider P h cancel fuel names versionSets solvables = some (.ok snapshot)) :
    (∀ i, Mentions snapshot i → Present snapshot i) ∧
    (∀ i e, i.element = some e → e ∈ startElements names versionSets solvables → Present snapshot i) ∧
    ∀ sp added, Extends snapshot sp added →
      (∀ i, Present snapshot i → Resolves P sp i) ∧
      (∀ a ∈ added, ResolvesAdded P sp a) ∧
      (∀ i, Known sp added i → Answers sp i) ∧
      ∀ l, (∀ s ∈ l, Known sp added (.solvable s)) → (sp.sortCandidates l).isSome := by
  have hr := fromProvider_spec hok
  refine ⟨fun i hi => hr.closed hi, fun i e hi he => hr.present hi ⟨e, he, .refl⟩, ?_⟩
  intro sp added hsp
  have hh := hsp.holds hr
  refine ⟨?_, fun a ha => hh.resolvesAdded ha, fun i hi => hi.answers hr hh,
    fun l hl => sortCandidates_isSome hr hh hl⟩
  intro i hi
  obtain rfl := hh.same
  exact resolves_of_present hr hi

end Queries

/-- Two packages: each candidate of the first one requires a union of version sets of the second one,
    under a condition. -/
def sampleSource : Provider where
  displaySolvable := fun s => if s = 2 then "b=2" else "a"
  displayName := fun n => if n = 0 then "a" else "b"
  displayVersionSet := fun _ => "*"
  displayString := fun _ => "excluded"
  versionSetName := fun v => if v = 4 then 0 else 3
  solvableName := fun s => if s ≤ 1 then 0 else 3
  versionSetsInUnion := fun _ => [0, 1]
  resolveCondition := fun c => if c = 0 then .binary .and 1 2 else .requirement 4
  filterCandidates := fun l _ inverse => if inverse then [] else l
  getCandidates := fun n =>
    if n = 0 then some { candidates := [0, 1], excluded := [(1, 7)] } else some { candidates := [2] }
  sortCandidates := List.reverse
  getDependencies := fun s =>
    if s ≤ 1 then .known ⟨[⟨some 0, .union 0⟩], []⟩ else .unknown 8

/-- Members iterated in the order they are listed first. -/
def listedOrder : HashOrder where
  order := fun _ l => l.dedup
  nodup := fun _ l => l.nodup_dedup
  mem_iff := fun _ _ _ => List.mem_dedup

/-- The snapshot that a capture ended with. -/
def captureOf : Option (Except CaptureError DependencySnapshot) → Option DependencySnapshot
  | some (.ok snapshot) => some snapshot
  | some (.error _) => none
  | none => none

theorem captureOf_eq_some {result : Option (Except CaptureError DependencySnapshot)}
    {snapshot : DependencySnapshot} (h : captureOf result = some snapshot) : result = some (.ok snapshot) := by
  rcases result with _ | error | snapshot'
  · cases h
  · cases h
  · rw [Option.some.inj h]

theorem sampleSource_captured : ∃ snapshot,
    fromProvider sampleSource listedOrder (fun _ => false) 20 [0] [] [] = some (.ok snapshot) := by
  have hok : (captureOf (fromProvider sampleSource listedOrder (fun _ => false) 20 [0] [] [])).isSome = true := by
    decide +kernel
  obtain ⟨snapshot, h⟩ := Option.isSome_iff_exists.mp hok
  exact ⟨snapshot, captureOf_eq_some h⟩

theorem sampleSource_closed : ∃ snapshot,
    fromProvider sampleSource listedOrder (fun _ => false) 20 [0] [] [] = some (.ok snapshot) ∧
      (∀ i, Mentions snapshot i → Present snapshot i) ∧ Present snapshot (.package 0) := by
  obtain ⟨snapshot, hok⟩ := sampleSource_captured
  obtain ⟨hclosed, hstart, -⟩ := fromProvider_closed hok
  exact ⟨snapshot, hok, hclosed, hstart _ _ rfl (by decide)⟩

end SnapshotProvider

end Resolvo
