import Resolvo.Correctness.SnapshotProvider

/-!
# `Correctness.SnapshotAgreement` — where a snapshot answers like the provider it was taken from

Dependencies, conditions, candidates and exclusions always agree. The orders are only assigned to the
packages an iteration over the mapping yields, the members of a union come back in the order of a hash set,
and every candidate is hinted, so on these the answers agree exactly where that loses nothing.
-/

namespace Resolvo

open Snapshot

namespace Snapshot

variable {P : Provider} {h : HashOrder}

/-! ## The orders assigned to a package -/

theorem assigned_of_notMem {order : SolvableId → Nat} {assignments : List (SolvableId × Nat)}
    {s : SolvableId} (hs : s ∉ assignments.map Prod.fst) : assigned order assignments s = order s := by
  unfold assigned
  induction assignments generalizing order with
  | nil => rfl
  | cons entry assignments ih =>
    rw [List.map_cons, List.mem_cons, not_or] at hs
    rw [List.foldl_cons, ih hs.2, Function.update_of_ne hs.1]

/-- Numbering a list gives each element its position. -/
theorem assigned_zipIdx {order : SolvableId → Nat} {l : List SolvableId} (hnodup : l.Nodup) (k i : Nat)
    {s : SolvableId} (hs : l[i]? = some s) : assigned order (l.zipIdx k) s = k + i := by
  induction l generalizing order k i with
  | nil => cases hs
  | cons a l ih =>
    obtain ⟨hnot, hnodup⟩ := List.nodup_cons.mp hnodup
    rw [List.zipIdx_cons]
    show assigned (Function.update order a k) (l.zipIdx (k + 1)) s = k + i
    cases i with
    | zero =>
      cases hs
      rw [assigned_of_notMem, Function.update_self]
      · rfl
      · rw [List.zipIdx_map_fst]
        exact hnot
    | succ i =>
      rw [ih hnodup (k + 1) i hs]
      omega

/-- What a provider promises: filtering looks at one solvable at a time, sorting only reorders, a package
    lists each of its own solvables once, and nothing is locked or favored or may be selected twice. -/
structure Provider.Plain (P : Provider) (accepts : SolvableId → VersionSetId → Bool) : Prop where
  filter : ∀ l v inverse, P.filterCandidates l v inverse = l.filter fun s => accepts s v != inverse
  sort : ∀ l, (P.sortCandidates l).Perm l
  nodup : ∀ n, (P.candidatesOf n).candidates.Nodup
  name : ∀ n, ∀ s ∈ (P.candidatesOf n).candidates, P.solvableName s = n
  locked : ∀ n, (P.candidatesOf n).locked = none
  favored : ∀ n, (P.candidatesOf n).favored = none
  allowMultiple : ∀ n, (P.candidatesOf n).allowMultiple = false

section Orders

variable {accepts : SolvableId → VersionSetId → Bool} {packages : List (NameId × Package)} {n : NameId}
  {s : SolvableId}

/-- The solvables of one package keep their orders while other packages are numbered. -/
theorem orders_of_other (hP : P.Plain accepts) (hpackages : ∀ e ∈ packages, e.2 = P.packageOf e.1)
    (hn : n ∉ packages.map Prod.fst) (hs : s ∈ (P.candidatesOf n).candidates) (order : SolvableId → Nat) :
    packages.foldl (fun order (entry : NameId × Package) =>
      assigned order (P.sortCandidates entry.2.solvables).zipIdx) order s = order s := by
  induction packages generalizing order with
  | nil => rfl
  | cons e packages ih =>
    rw [List.map_cons, List.mem_cons, not_or] at hn
    rw [List.foldl_cons, ih (fun e' he' => hpackages e' (List.mem_cons_of_mem _ he')) hn.2]
    apply assigned_of_notMem
    rw [List.zipIdx_map_fst, (hP.sort _).mem_iff, hpackages e List.mem_cons_self]
    intro hmem
    exact hn.1 ((hP.name n s hs).symm.trans (hP.name e.1 s hmem))

/-- A package that is numbered gets the positions in the sorted list. -/
theorem orders_of_mem (hP : P.Plain accepts) (hpackages : ∀ e ∈ packages, e.2 = P.packageOf e.1)
    (hn : n ∈ packages.map Prod.fst) {i : Nat}
    (hs : (P.sortCandidates (P.candidatesOf n).candidates)[i]? = some s) (order : SolvableId → Nat) :
    packages.foldl (fun order (entry : NameId × Package) =>
      assigned order (P.sortCandidates entry.2.solvables).zipIdx) order s = i := by
  induction packages generalizing order with
  | nil => cases hn
  | cons e packages ih =>
    rw [List.foldl_cons]
    have hrest : ∀ e' ∈ packages, e'.2 = P.packageOf e'.1 :=
      fun e' he' => hpackages e' (List.mem_cons_of_mem _ he')
    by_cases hlater : n ∈ packages.map Prod.fst
    · exact ih hrest hlater _
    · -- this is the last entry for the package
      rcases List.mem_cons.mp hn with heq | hmem
      · have hcandidate : s ∈ (P.candidatesOf n).candidates :=
          (hP.sort _).mem_iff.mp (List.mem_of_getElem? hs)
        rw [orders_of_other hP hrest hlater hcandidate, hpackages e List.mem_cons_self]
        show assigned order (P.sortCandidates (P.candidatesOf e.1).candidates).zipIdx s = i
        rw [← heq, assigned_zipIdx ((hP.sort _).nodup_iff.mpr (hP.nodup n)) 0 i hs]
        exact Nat.zero_add i
      · exact absurd hmem hlater

end Orders

/-! ## Sorting by the recorded orders -/

/-- Sorting by a key that is constant changes nothing. -/
theorem insertionSort_of_constant {l : List SolvableId} {order : SolvableId → Nat} {k : Nat}
    (hl : ∀ s ∈ l, order s = k) : (l.insertionSort fun a b => order a ≤ order b) = l := by
  apply List.Pairwise.insertionSort_eq
  apply List.pairwise_iff_forall_sublist.mpr
  intro a b hab
  have ha := hl a (hab.subset List.mem_cons_self)
  have hb := hl b (hab.subset (List.mem_cons_of_mem _ List.mem_cons_self))
  omega

/-- Sorting by the positions in a list gives that list. -/
theorem insertionSort_of_positions {l sorted : List SolvableId} {order : SolvableId → Nat}
    (hperm : sorted.Perm l) (horder : ∀ i s, sorted[i]? = some s → order s = i) :
    (l.insertionSort fun a b => order a ≤ order b) = sorted := by
  have htotal : Std.Total fun a b => order a ≤ order b := ⟨fun a b => Nat.le_total _ _⟩
  have htrans : IsTrans SolvableId fun a b => order a ≤ order b := ⟨fun a b c => Nat.le_trans⟩
  have hsorted := List.pairwise_insertionSort (fun a b => order a ≤ order b) l
  refine List.Perm.eq_of_pairwise ?_ hsorted ?_ ((List.perm_insertionSort _ l).trans hperm.symm)
  · intro a b ha hb hab hba
    rw [List.mem_insertionSort, ← hperm.mem_iff] at ha
    obtain ⟨i, hi⟩ := List.mem_iff_getElem?.mp ha
    obtain ⟨j, hj⟩ := List.mem_iff_getElem?.mp hb
    have hij : i = j := by
      rw [← horder i a hi, ← horder j b hj]
      exact Nat.le_antisymm hab hba
    rw [hij, hj] at hi
    exact (Option.some.inj hi).symm
  · apply List.pairwise_iff_getElem.mpr
    intro i j hi hj hlt
    show order sorted[i] ≤ order sorted[j]
    rw [horder i _ (List.getElem?_eq_getElem hi), horder j _ (List.getElem?_eq_getElem hj)]
    exact Nat.le_of_lt hlt

/-! ## Agreement -/

/-- The elements a capture records, as they follow from the provider and the start. -/
def Captured (P : Provider) (start : List Element) (e : Element) : Prop := e ∈ Reached P start

/-- The unions among them. -/
def CapturedUnion (P : Provider) (start : List Element) (u : VersionSetUnionId) : Prop :=
  ∃ e ∈ Reached P start, u ∈ P.unions e

/-- On the captured elements the answers are those of the provider. -/
structure Agrees (P : Provider) (start : List Element) (sp : SnapshotProvider) : Prop where
  filterCandidates : ∀ v, Captured P start (.versionSet v) → ∀ l : List SolvableId,
    (∀ s ∈ l, Captured P start (.solvable s)) → ∀ inverse,
      sp.filterCandidates l v inverse = some (P.filterCandidates l v inverse)
  sortCandidates : ∀ n, Captured P start (.package n) →
    sp.sortCandidates (P.candidatesOf n).candidates = some (P.sortCandidates (P.candidatesOf n).candidates)
  versionSetsInUnion : ∀ u, CapturedUnion P start u →
    sp.versionSetsInUnion u = some (P.versionSetsInUnion u)
  getDependencies : ∀ s, Captured P start (.solvable s) → sp.getDependencies s = some (P.getDependencies s)
  resolveCondition : ∀ c, Captured P start (.condition c) →
    sp.resolveCondition c = some (P.resolveCondition c)
  getCandidates : ∀ n, Captured P start (.package n) → ∃ c, sp.getCandidates n = some c ∧
    c.candidates = (P.candidatesOf n).candidates ∧ c.excluded = (P.candidatesOf n).excluded ∧
    ∀ s, s ∈ hinted c ↔ s ∈ hinted (P.candidatesOf n)

/-- Nothing is lost: a version set accepts no captured solvable its package does not list, a package whose
    id is not below the number of captured packages is listed in sorted order already, the hash set yields
    the members of a union as the provider does, and all candidates are hinted. -/
structure Lossless (P : Provider) (h : HashOrder) (accepts : SolvableId → VersionSetId → Bool)
    (start : List Element) : Prop where
  accepted : ∀ v, Captured P start (.versionSet v) → ∀ s, Captured P start (.solvable s) →
    accepts s v = true → s ∈ (P.candidatesOf (P.versionSetName v)).candidates
  sorted : ∀ n, Captured P start (.package n) → n < {n | Captured P start (.package n)}.ncard ∨
    P.sortCandidates (P.candidatesOf n).candidates = (P.candidatesOf n).candidates
  members : ∀ u, CapturedUnion P start u → h.order u (P.versionSetsInUnion u) = P.versionSetsInUnion u
  hints : ∀ n, Captured P start (.package n) →
    ∀ s, s ∈ (P.candidatesOf n).candidates ↔ s ∈ hinted (P.candidatesOf n)

namespace Records

variable {accepts : SolvableId → VersionSetId → Bool} {snapshot : DependencySnapshot}
  {start : List Element} {n : NameId}

/-- The number of packages in the snapshot. -/
theorem packages_len {order : SolvableId → Nat} (hr : Records P h order snapshot (Reached P start)) :
    snapshot.packages.len = {n | Captured P start (.package n)}.ncard := by
  rw [← hr.packages_wf.len]
  congr 1
  ext n
  show snapshot.packages.get n ≠ none ↔ Element.package n ∈ Reached P start
  rw [Option.ne_none_iff_exists']
  constructor
  · rintro ⟨p, hp⟩
    exact ((hr.packages n p).mp hp).1
  · intro hn
    exact ⟨_, (hr.packages n _).mpr ⟨hn, rfl⟩⟩

/-- An iteration over the packages yields those whose id is below their number. -/
theorem mem_iter_packages {order : SolvableId → Nat} (hr : Records P h order snapshot (Reached P start)) :
    n ∈ snapshot.packages.iter.map Prod.fst ↔
      n < {n | Captured P start (.package n)}.ncard ∧ Captured P start (.package n) := by
  rw [← hr.packages_len, List.mem_map]
  constructor
  · rintro ⟨⟨n, p⟩, hmem, rfl⟩
    obtain ⟨hlt, hp⟩ := (Mapping.mem_iter (fun _ _ => rfl) _ _).mp hmem
    exact ⟨hlt, ((hr.packages n p).mp hp).1⟩
  · rintro ⟨hlt, hn⟩
    exact ⟨(n, P.packageOf n), (Mapping.mem_iter (fun _ _ => rfl) _ _).mpr ⟨hlt, (hr.packages n _).mpr ⟨hn, rfl⟩⟩, rfl⟩

/-- A snapshot sorts solvables it holds by the orders recorded for them. -/
theorem sortCandidates_eq {order : SolvableId → Nat} {sp : SnapshotProvider}
    (hr : Records P h order sp.snapshot (Reached P start)) {l : List SolvableId}
    (hl : ∀ s ∈ l, Captured P start (.solvable s)) :
    sp.sortCandidates l = some (l.insertionSort fun a b => order a ≤ order b) := by
  have hall := List.mapM_eq_some_map (l := l)
    (f := fun s => (sp.solvable s).map fun solvable => (s, solvable.order))
    (g := fun s => (s, order s)) fun s hs => by
      have hsolvable : sp.solvable s = some (P.solvableOf s (order s)) :=
        (hr.solvables s _).mpr ⟨hl s hs, rfl⟩
      rw [hsolvable]
      rfl
  have hkeyed : (l.insertionSort fun a b => order a ≤ order b).map (fun s => (s, order s))
      = (l.map fun s => (s, order s)).insertionSort fun a b => a.2 ≤ b.2 :=
    List.map_insertionSort _ _ _ _ fun a _ b _ => Iff.rfl
  unfold SnapshotProvider.sortCandidates
  rw [hall, Option.map_some, ← hkeyed, List.map_map]
  exact congrArg some (List.map_id _)

/-- **What sorting the candidates of a captured package gives**: the order of the provider when the package
    was numbered, and the listed order when it was not. -/
theorem sortCandidates_of_captured (hP : P.Plain accepts) {sp : SnapshotProvider}
    (hr : Records P h (orderOf P sp.snapshot.packages) sp.snapshot (Reached P start))
    (hn : Captured P start (.package n)) : sp.sortCandidates (P.candidatesOf n).candidates =
      some (if n < {n | Captured P start (.package n)}.ncard then
        P.sortCandidates (P.candidatesOf n).candidates else (P.candidatesOf n).candidates) := by
  have hcandidates : ∀ s ∈ (P.candidatesOf n).candidates, Captured P start (.solvable s) := by
    intro s hs
    obtain ⟨e₀, he₀, hpath⟩ := hn
    exact ⟨e₀, he₀, hpath.tail (List.mem_append_left _ (List.mem_map_of_mem hs))⟩
  have hpackages : ∀ e ∈ sp.snapshot.packages.iter, e.2 = P.packageOf e.1 := by
    rintro ⟨n', p⟩ he
    exact ((hr.packages n' p).mp ((Mapping.mem_iter (fun _ _ => rfl) _ _).mp he).2).2
  rw [hr.sortCandidates_eq hcandidates]
  apply congrArg some
  split
  · rename_i hlt
    apply insertionSort_of_positions (hP.sort _)
    intro i s hs
    exact orders_of_mem hP hpackages (hr.mem_iter_packages.mpr ⟨hlt, hn⟩) hs _
  · rename_i hlt
    apply insertionSort_of_constant
    intro s hs
    exact orders_of_other hP hpackages (fun hmem => hlt (hr.mem_iter_packages.mp hmem).1) hs _

/-- Filtering solvables of a snapshot keeps the accepted ones its version set's package lists. -/
theorem filterCandidates_iff (hP : P.Plain accepts) {order : SolvableId → Nat} {sp : SnapshotProvider}
    (hr : Records P h order sp.snapshot (Reached P start)) {v : VersionSetId}
    (hv : Captured P start (.versionSet v)) :
    (∀ l : List SolvableId, (∀ s ∈ l, Captured P start (.solvable s)) → ∀ inverse,
        sp.filterCandidates l v inverse = some (P.filterCandidates l v inverse)) ↔
      ∀ s, Captured P start (.solvable s) → accepts s v = true →
        s ∈ (P.candidatesOf (P.versionSetName v)).candidates := by
  have hpresent : Present sp.snapshot (.versionSet v) := hr.present rfl hv
  have hmatching : ∀ s, s ∈ P.matchingCandidates v ↔
      s ∈ (P.candidatesOf (P.versionSetName v)).candidates ∧ accepts s v = true := by
    intro s
    unfold Provider.matchingCandidates
    rw [hP.filter, List.mem_filter]
    simp
  constructor
  · intro hagree s hs haccepts
    have hone := hagree [s] (by simpa using hs) false
    rw [SnapshotProvider.filterCandidates_of_present hr hpresent, hP.filter] at hone
    have hmem : s ∈ [s].filter fun s => decide (s ∈ P.matchingCandidates v) != false := by
      rw [Option.some.inj hone]
      simp [haccepts]
    have hin : s ∈ P.matchingCandidates v := by simpa using (List.mem_filter.mp hmem).2
    exact ((hmatching s).mp hin).1
  · intro hlisted l hl inverse
    rw [SnapshotProvider.filterCandidates_of_present hr hpresent, hP.filter]
    apply congrArg some
    apply List.filter_congr
    intro s hs
    have hsame : decide (s ∈ P.matchingCandidates v) = accepts s v := by
      rw [Bool.eq_iff_iff, decide_eq_true_eq, hmatching]
      exact ⟨fun hboth => hboth.2, fun haccepts => ⟨hlisted s (hl s hs) haccepts, haccepts⟩⟩
    rw [hsame]

end Records

/-- **When a snapshot agrees**: exactly when the capture loses nothing. -/
theorem fromProvider_agrees_iff {accepts : SolvableId → VersionSetId → Bool} {cancel : Nat → Bool}
    {fuel : Nat} {names : List NameId} {versionSets : List VersionSetId} {solvables : List SolvableId}
    {snapshot : DependencySnapshot} (hP : P.Plain accepts)
    (hok : fromProvider P h cancel fuel names versionSets solvables = some (.ok snapshot)) :
    Agrees P (startElements names versionSets solvables) { snapshot := snapshot } ↔
      Lossless P h accepts (startElements names versionSets solvables) := by
  have hr := fromProvider_spec hok
  generalize startElements names versionSets solvables = start at hr ⊢
  have hr' : Records P h (orderOf P snapshot.packages)
    (SnapshotProvider.snapshot { snapshot := snapshot }) (Reached P start) := hr
  constructor
  · intro hagree
    refine ⟨?_, ?_, ?_, ?_⟩
    · intro v hv
      exact (hr'.filterCandidates_iff hP hv).mp (hagree.filterCandidates v hv)
    · intro n hn
      have hsort := hagree.sortCandidates n hn
      rw [hr'.sortCandidates_of_captured hP hn, Option.some.injEq] at hsort
      split at hsort
      · rename_i hlt
        exact .inl hlt
      · exact .inr hsort.symm
    · intro u hu
      have hmembers := hagree.versionSetsInUnion u hu
      have hrecorded := (hr.unions u _).mpr ⟨hu, rfl⟩
      exact Option.some.inj (hrecorded.symm.trans hmembers)
    · intro n hn s
      obtain ⟨c, hc, -, -, hhints⟩ := hagree.getCandidates n hn
      rw [SnapshotProvider.getCandidates_of_present hr' (hr'.present rfl hn)] at hc
      cases hc
      exact hhints s
  · intro hlossless
    refine ⟨?_, ?_, ?_, ?_, ?_, ?_⟩
    · intro v hv
      exact (hr'.filterCandidates_iff hP hv).mpr (hlossless.accepted v hv)
    · intro n hn
      rw [hr'.sortCandidates_of_captured hP hn]
      split
      · rfl
      · rename_i hle
        rcases hlossless.sorted n hn with hlt | heq
        · exact absurd hlt hle
        · rw [heq]
    · intro u hu
      have hrecorded := (hr.unions u _).mpr ⟨hu, rfl⟩
      rw [hlossless.members u hu] at hrecorded
      exact hrecorded
    · intro s hs
      exact (SnapshotProvider.resolves_of_present hr' (hr'.present (i := .solvable s) rfl hs)).2.2
    · intro c hc
      exact SnapshotProvider.resolves_of_present hr' (hr'.present (i := .condition c) rfl hc)
    · intro n hn
      exact ⟨_, SnapshotProvider.getCandidates_of_present hr' (hr'.present rfl hn), rfl, rfl,
        hlossless.hints n hn⟩

/-! ## One package -/

/-- A provider of one package with two solvables, sorted in reverse and all hinted. -/
def soloSource (name : NameId) : Provider where
  displaySolvable := fun s => if s = 0 then "solo 0" else "solo 1"
  displayName := fun _ => "solo"
  displayVersionSet := fun _ => "*"
  displayString := fun _ => ""
  versionSetName := fun _ => name
  solvableName := fun _ => name
  versionSetsInUnion := fun _ => []
  resolveCondition := fun _ => .requirement 0
  filterCandidates := fun l _ inverse => l.filter fun _ => true != inverse
  getCandidates := fun n =>
    if n = name then some { candidates := [0, 1], hintDependenciesAvailable := .all } else none
  sortCandidates := List.reverse
  getDependencies := fun _ => .known ⟨[], []⟩

theorem soloSource_candidatesOf (name n : NameId) : (soloSource name).candidatesOf n =
    if n = name then { candidates := [0, 1], hintDependenciesAvailable := .all }
    else ({} : Candidates SolvableId) := by
  unfold Provider.candidatesOf soloSource
  dsimp only
  split <;> rfl

theorem soloSource_plain (name : NameId) : (soloSource name).Plain fun _ _ => true where
  filter _ _ _ := rfl
  sort l := l.reverse_perm
  nodup n := by
    rw [soloSource_candidatesOf]
    split <;> decide
  name n s hs := by
    rw [soloSource_candidatesOf] at hs
    split at hs
    · rename_i heq
      exact heq.symm
    · cases hs
  locked n := by
    rw [soloSource_candidatesOf]
    split <;> rfl
  favored n := by
    rw [soloSource_candidatesOf]
    split <;> rfl
  allowMultiple n := by
    rw [soloSource_candidatesOf]
    split <;> rfl

/-- What a capture of the package reaches. -/
theorem soloSource_captured (name : NameId) {e : Element}
    (he : Captured (soloSource name) (startElements [name] [] []) e) :
    e = .package name ∨ e = .solvable 0 ∨ e = .solvable 1 := by
  obtain ⟨e₀, he₀, hpath⟩ := he
  induction hpath with
  | refl => exact .inl (List.mem_singleton.mp he₀)
  | tail _ hstep ih =>
    have hsolvable : ∀ s, (soloSource name).successors (.solvable s) = [.package name] := fun _ => rfl
    have hpackage : (soloSource name).successors (.package name) = [.solvable 0, .solvable 1] := by
      show ((soloSource name).candidatesOf name).candidates.map _ ++ _ = _
      rw [soloSource_candidatesOf, if_pos rfl]
      rfl
    rcases ih with rfl | rfl | rfl
    · rw [hpackage] at hstep
      exact .inr (by simpa using hstep)
    · rw [hsolvable] at hstep
      exact .inl (List.mem_singleton.mp hstep)
    · rw [hsolvable] at hstep
      exact .inl (List.mem_singleton.mp hstep)

/-- Without a gap below its id, the order of the package is recorded. -/
theorem soloSource_lossless :
    Lossless (soloSource 0) SnapshotProvider.listedOrder (fun _ _ => true) (startElements [0] [] []) where
  accepted v hv := by
    have hcases := soloSource_captured 0 hv
    simp at hcases
  sorted n hn := by
    have hcases := soloSource_captured 0 hn
    have hpackages : {n | Captured (soloSource 0) (startElements [0] [] []) (.package n)} = {0} := by
      ext n'
      constructor
      · intro hn'
        have hcases' := soloSource_captured 0 hn'
        simpa using hcases'
      · rintro rfl
        exact ⟨_, List.mem_singleton.mpr rfl, .refl⟩
    rw [hpackages, Set.ncard_singleton]
    simp only [Element.package.injEq, reduceCtorEq, or_false] at hcases
    rw [hcases]
    exact .inl Nat.one_pos
  members u hu := by
    obtain ⟨e, he, hu⟩ := hu
    rcases soloSource_captured 0 he with rfl | rfl | rfl <;> cases hu
  hints n hn s := by
    rw [soloSource_candidatesOf]
    split <;> rfl

theorem soloSource_agrees : ∃ snapshot,
    fromProvider (soloSource 0) SnapshotProvider.listedOrder (fun _ => false) 9 [0] [] []
        = some (.ok snapshot) ∧
      Agrees (soloSource 0) (startElements [0] [] []) { snapshot := snapshot } := by
  have hok : (SnapshotProvider.captureOf (fromProvider (soloSource 0) SnapshotProvider.listedOrder
      (fun _ => false) 9 [0] [] [])).isSome = true := by decide +kernel
  obtain ⟨snapshot, h⟩ := Option.isSome_iff_exists.mp hok
  have heq := SnapshotProvider.captureOf_eq_some h
  exact ⟨snapshot, heq, (fromProvider_agrees_iff (soloSource_plain 0) heq).mpr soloSource_lossless⟩

/-- With a gap below its id, the package is not numbered and its candidates stay as they are listed. -/
theorem soloSource_counterexample : (soloSource 1).Plain (fun _ _ => true) ∧ ∃ snapshot,
    fromProvider (soloSource 1) SnapshotProvider.listedOrder (fun _ => false) 9 [1] [] []
        = some (.ok snapshot) ∧
      ¬ Agrees (soloSource 1) (startElements [1] [] []) { snapshot := snapshot } := by
  refine ⟨soloSource_plain 1, ?_⟩
  have hok : (SnapshotProvider.captureOf (fromProvider (soloSource 1) SnapshotProvider.listedOrder
      (fun _ => false) 9 [1] [] [])).any (fun snapshot =>
        (SnapshotProvider.mk snapshot []).sortCandidates [0, 1] == some [0, 1]) = true := by decide +kernel
  obtain ⟨snapshot, h, hsorted⟩ := (Option.any_eq_true _ _).mp hok
  refine ⟨snapshot, SnapshotProvider.captureOf_eq_some h, fun hagree => ?_⟩
  have hsort := hagree.sortCandidates 1 ⟨_, List.mem_singleton.mpr rfl, .refl⟩
  rw [soloSource_candidatesOf, if_pos rfl] at hsort
  have hsame := (eq_of_beq hsorted).symm.trans hsort
  revert hsame
  decide

end Snapshot

end Resolvo
