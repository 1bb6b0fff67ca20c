import Resolvo.Lib.Derivation
import Resolvo.Correctness.Tracker
import Resolvo.Model.Search

/-!
# `Correctness.Database` — the clause database and the trail over it

The clause arena only grows, and the literals of a clause never change once it is in: that is
`Extends`. `Core` is the invariant of the search state: the trail is supported by the reasons it names,
watch lists point at clauses that watch the literal, and every learnt clause follows from its causes.
Each operation on the state that touches the arena, the trail or the watches has one lemma here.
-/

set_option linter.unusedSectionVars false

namespace Resolvo

open Sat

variable {N S F : Type} [DecidableEq N] [DecidableEq S]

namespace SolverState

/-! ## Growth -/

/-- `s'` has everything `s` has. -/
structure Extends (s s' : SolverState N S F) : Prop where
  clauses : s.clauses <+: s'.clauses
  learntClauses : s.learntClauses <+: s'.learntClauses
  learntWhy : s.learntWhy <+: s'.learntWhy
  disjunctions : s.disjunctions <+: s'.disjunctions
  candidates : ∀ r vars, s.requirementToSortedCandidates.get? r = some vars →
    s'.requirementToSortedCandidates.get? r = some vars

theorem Extends.refl (s : SolverState N S F) : Extends s s :=
  ⟨List.prefix_refl _, List.prefix_refl _, List.prefix_refl _, List.prefix_refl _, fun _ _ h => h⟩

theorem Extends.trans {s s' s'' : SolverState N S F} (h : Extends s s') (h' : Extends s' s'') :
    Extends s s'' :=
  ⟨h.clauses.trans h'.clauses, h.learntClauses.trans h'.learntClauses,
    h.learntWhy.trans h'.learntWhy, h.disjunctions.trans h'.disjunctions,
    fun r vars hr => h'.candidates r vars (h.candidates r vars hr)⟩

theorem getElem?_of_isPrefix {α : Type} {l l' : List α} (h : l <+: l') {i : Nat} {a : α}
    (hi : l[i]? = some a) : l'[i]? = some a := by
  obtain ⟨t, rfl⟩ := h
  rw [List.getElem?_append_left (List.getElem?_eq_some_iff.mp hi).1]
  exact hi

/-- The tables a clause refers to have an entry for it. -/
def Closed (s : SolverState N S F) : Clause N → Prop
  | .requires _ condition requirement =>
      (∃ vars, s.requirementToSortedCandidates.get? requirement = some vars) ∧
        ∀ d, condition = some d → ∃ disjunction, s.disjunctions[d]? = some disjunction
  | .learnt id => ∃ learnt, s.learntClauses[id]? = some learnt
  | _ => True

/-- The literals of a clause kind in a state. -/
def kindLiterals (s : SolverState N S F) (kind : Clause N) : List Literal :=
  kind.literals s.learntClauses s.requirementToSortedCandidates s.disjunctions

theorem literals_of_kind {s : SolverState N S F} {id : ClauseId} {kind : Clause N}
    (h : s.clauses[id]? = some kind) : s.literals id = s.kindLiterals kind := by
  simp [literals, h, kindLiterals]

theorem Closed.extends {s s' : SolverState N S F} {kind : Clause N} (h : s.Closed kind)
    (he : Extends s s') : s'.Closed kind := by
  cases kind with
  | requires parent condition requirement =>
      obtain ⟨⟨vars, hvars⟩, hcond⟩ := h
      refine ⟨⟨vars, he.candidates _ _ hvars⟩, fun d hd => ?_⟩
      obtain ⟨disjunction, hdis⟩ := hcond d hd
      exact ⟨disjunction, getElem?_of_isPrefix he.disjunctions hdis⟩
  | learnt id =>
      obtain ⟨learnt, hl⟩ := h
      exact ⟨learnt, getElem?_of_isPrefix he.learntClauses hl⟩
  | _ => trivial

/-- The literals of a closed clause never change. -/
theorem Closed.kindLiterals_eq {s s' : SolverState N S F} {kind : Clause N} (h : s.Closed kind)
    (he : Extends s s') : s'.kindLiterals kind = s.kindLiterals kind := by
  cases kind with
  | requires parent condition requirement =>
      obtain ⟨⟨vars, hvars⟩, hcond⟩ := h
      have hvars' := he.candidates _ _ hvars
      cases condition with
      | none => simp [kindLiterals, Clause.literals, IndexMap.getD, hvars, hvars']
      | some d =>
          obtain ⟨disjunction, hdis⟩ := hcond d rfl
          have hdis' := getElem?_of_isPrefix he.disjunctions hdis
          simp [kindLiterals, Clause.literals, IndexMap.getD, hvars, hvars', hdis, hdis']
  | learnt id =>
      obtain ⟨learnt, hl⟩ := h
      simp [kindLiterals, Clause.literals, hl, getElem?_of_isPrefix he.learntClauses hl]
  | _ => rfl

/-- The clauses a learnt clause was derived from. -/
def causes (s : SolverState N S F) (id : ClauseId) : Option (List ClauseId) :=
  match s.clauses[id]? with
  | some (.learnt learntId) => s.learntWhy[learntId]?
  | _ => none

/-! ## The invariant -/

/-- A clause watches two of its literals, and exactly its literals if it is binary. -/
structure WatchOk (kind : Clause N) (literals : List Literal) (w : Watches) : Prop where
  fst : w.1 ∈ literals
  snd : w.2 ∈ literals
  binary : kind.isBinary = true → ∀ l ∈ literals, l = w.1 ∨ l = w.2

/-- A clause in a watch list has watches; a binary one watches the literal of the list. -/
def Watching (s : SolverState N S F) (id : ClauseId) (l : Literal) : Prop :=
  ∃ kind w, s.clauses[id]? = some kind ∧ s.watchedLiterals[id]? = some (some w) ∧
    (kind.isBinary = true → w.1 = l ∨ w.2 = l)

/-- The invariant of the arena. -/
structure Arena (s : SolverState N S F) : Prop where
  root : s.clauses[0]? = some .installRoot
  root_only : ∀ id : ClauseId, s.clauses[id]? = some .installRoot → id = 0
  closed : ∀ (id : ClauseId) kind, s.clauses[id]? = some kind → s.Closed kind
  watched_length : s.watchedLiterals.length = s.clauses.length
  watched : ∀ (id : ClauseId) kind w, s.clauses[id]? = some kind →
    s.watchedLiterals[id]? = some (some w) → WatchOk kind (s.kindLiterals kind) w
  watches : ∀ l, ∀ id ∈ s.watches.getD l [], s.Watching id l
  assertions : ∀ a ∈ s.negativeAssertions,
    a.2 < s.clauses.length ∧ s.literals a.2 = [negative a.1]
  learnt_length : s.learntWhy.length = s.learntClauses.length
  learnt_ids : ∀ id ∈ s.learntClauseIds, id < s.clauses.length ∧ id ≠ ClauseId.installRoot
  requirers : ∀ e ∈ s.requiresGateRequirers.entries, ∀ r ∈ e.2,
    s.clauses[r.2]? = some (.anyOf e.1 r.1)
  derivation : Derivation s.literals s.causes
  /-- Causes are clauses of the problem or learnt from them. -/
  causes_valid : ∀ id why, s.causes id = some why →
    ∀ i ∈ why, i < s.clauses.length ∧ i ≠ ClauseId.installRoot

/-- The invariant of the search: the trail is supported by clauses of the arena. -/
structure Core (s : SolverState N S F) : Prop where
  tracker : s.decisionTracker.WF
  arena : s.Arena
  supported : s.decisionTracker.trail.Supported s.literals
  reasons : ∀ e ∈ s.decisionTracker.trail, e.reason < s.clauses.length

theorem Arena.lt_of_kind {s : SolverState N S F} {id : ClauseId} {kind : Clause N}
    (h : s.clauses[id]? = some kind) : id < s.clauses.length :=
  (List.getElem?_eq_some_iff.mp h).1

theorem Arena.literals_extends {s s' : SolverState N S F} (h : s.Arena) (he : Extends s s')
    {id : ClauseId} (hid : id < s.clauses.length) : s'.literals id = s.literals id := by
  have hk : s.clauses[id]? = some (s.clauses[id]) := List.getElem?_eq_getElem hid
  rw [literals_of_kind hk, literals_of_kind (getElem?_of_isPrefix he.clauses hk)]
  exact (h.closed id _ hk).kindLiterals_eq he

theorem Arena.causes_extends {s s' : SolverState N S F} (h : s.Arena) (he : Extends s s')
    {id : ClauseId} (hid : id < s.clauses.length) : s'.causes id = s.causes id := by
  have hk : s.clauses[id]? = some (s.clauses[id]) := List.getElem?_eq_getElem hid
  have hk' := getElem?_of_isPrefix he.clauses hk
  simp only [causes, hk, hk']
  cases hkind : s.clauses[id] with
  | learnt k =>
      rw [hkind] at hk
      obtain ⟨learnt, hl⟩ := h.closed id _ hk
      have hlt : k < s.learntWhy.length := by
        rw [h.learnt_length]; exact (List.getElem?_eq_some_iff.mp hl).1
      have hw : s.learntWhy[k]? = some s.learntWhy[k] := List.getElem?_eq_getElem hlt
      simp only [hw, getElem?_of_isPrefix he.learntWhy hw]
  | _ => rfl

/-- Literals of clauses that are not in the arena. -/
theorem literals_of_ge {s : SolverState N S F} {id : ClauseId} (h : s.clauses.length ≤ id) :
    s.literals id = [] := by simp [literals, List.getElem?_eq_none h]

theorem causes_of_ge {s : SolverState N S F} {id : ClauseId} (h : s.clauses.length ≤ id) :
    s.causes id = none := by simp [causes, List.getElem?_eq_none h]

theorem causes_lt {s : SolverState N S F} {id : ClauseId} {why : List ClauseId}
    (h : s.causes id = some why) : id < s.clauses.length := by
  by_contra hge
  rw [causes_of_ge (Nat.not_lt.mp hge)] at h
  cases h

/-- The trail of the core invariant survives any growth of the arena. -/
theorem Core.supported_extends {s s' : SolverState N S F} (h : s.Core) (he : Extends s s') :
    s.decisionTracker.trail.Supported s'.literals :=
  h.supported.congr fun e hmem => h.arena.literals_extends he (h.reasons e hmem)

/-! ## Operations that do not touch the search -/

/-- The arena, the watches and the trail are the same; the tables may have grown. -/
structure SameSearch (s s' : SolverState N S F) : Prop where
  extends_ : Extends s s'
  clauses : s'.clauses = s.clauses
  watchedLiterals : s'.watchedLiterals = s.watchedLiterals
  watches : s'.watches = s.watches
  negativeAssertions : s'.negativeAssertions = s.negativeAssertions
  learntClauses : s'.learntClauses = s.learntClauses
  learntWhy : s'.learntWhy = s.learntWhy
  learntClauseIds : s'.learntClauseIds = s.learntClauseIds
  requirers : s'.requiresGateRequirers = s.requiresGateRequirers
  decisionTracker : s'.decisionTracker = s.decisionTracker

theorem SameSearch.refl (s : SolverState N S F) : SameSearch s s :=
  ⟨.refl s, rfl, rfl, rfl, rfl, rfl, rfl, rfl, rfl, rfl⟩

theorem SameSearch.literals {s s' : SolverState N S F} (h : SameSearch s s') (ha : s.Arena)
    (id : ClauseId) : s'.literals id = s.literals id := by
  by_cases hid : id < s.clauses.length
  · exact ha.literals_extends h.extends_ hid
  · have hge := Nat.not_lt.mp hid
    rw [literals_of_ge hge, literals_of_ge (by rw [h.clauses]; exact hge)]

theorem SameSearch.causes {s s' : SolverState N S F} (h : SameSearch s s') (id : ClauseId) :
    s'.causes id = s.causes id := by simp only [SolverState.causes, h.clauses, h.learntWhy]

theorem Arena.same {s s' : SolverState N S F} (ha : s.Arena) (h : SameSearch s s') : s'.Arena where
  root := by rw [h.clauses]; exact ha.root
  root_only := by rw [h.clauses]; exact ha.root_only
  closed := by
    rw [h.clauses]
    exact fun id kind hk => (ha.closed id kind hk).extends h.extends_
  watched_length := by rw [h.watchedLiterals, h.clauses]; exact ha.watched_length
  watched := by
    rw [h.watchedLiterals, h.clauses]
    intro id kind w hk hw
    rw [(ha.closed id kind hk).kindLiterals_eq h.extends_]
    exact ha.watched id kind w hk hw
  watches := by
    simp only [Watching, h.clauses, h.watchedLiterals, h.watches]
    exact ha.watches
  assertions := by
    rw [h.negativeAssertions, h.clauses]
    intro a hmem
    rw [h.literals ha]
    exact ha.assertions a hmem
  learnt_length := by rw [h.learntWhy, h.learntClauses]; exact ha.learnt_length
  learnt_ids := by rw [h.learntClauseIds, h.clauses]; exact ha.learnt_ids
  requirers := by rw [h.requirers, h.clauses]; exact ha.requirers
  derivation := by
    rw [show s'.literals = s.literals from funext (h.literals ha),
      show s'.causes = s.causes from funext h.causes]
    exact ha.derivation
  causes_valid := by
    rw [h.clauses, show s'.causes = s.causes from funext h.causes]
    exact ha.causes_valid

theorem Core.same {s s' : SolverState N S F} (hc : s.Core) (h : SameSearch s s') : s'.Core where
  tracker := by rw [h.decisionTracker]; exact hc.tracker
  arena := hc.arena.same h
  supported := by
    rw [h.decisionTracker, show s'.literals = s.literals from funext (h.literals hc.arena)]
    exact hc.supported
  reasons := by rw [h.decisionTracker, h.clauses]; exact hc.reasons

/-! ## Adding a clause -/

/-- The lists after linking a clause to the literals it watches. -/
theorem mem_startWatching {m : IndexMap Literal (List ClauseId)} {w : Watches} {id id' : ClauseId}
    {l : Literal} : id' ∈ (startWatching m w id).getD l [] ↔
      id' ∈ m.getD l [] ∨ (id' = id ∧ (w.1 = l ∨ w.2 = l)) := by
  have hfirst : ∀ l, (m.insert w.1 (id :: m.getD w.1 [])).getD l [] =
      if w.1 = l then id :: m.getD l [] else m.getD l [] := by
    intro l
    rw [IndexMap.getD_insert]
    by_cases h : w.1 = l
    · rw [if_pos h, if_pos h, h]
    · rw [if_neg h, if_neg h]
  unfold startWatching
  dsimp only
  by_cases hsame : w.2 = w.1
  · rw [if_pos hsame, hfirst, hsame, or_self]
    by_cases h : w.1 = l
    · rw [if_pos h, List.mem_cons, and_iff_left h, or_comm]
    · rw [if_neg h]
      exact ⟨.inl, fun h' => h'.resolve_right fun h' => h h'.2⟩
  · rw [if_neg hsame, IndexMap.getD_insert, hfirst, hfirst, if_neg (Ne.symm hsame)]
    by_cases h2 : w.2 = l
    · rw [if_pos h2, ← h2, List.mem_cons, or_comm]
      exact or_congr_right ⟨fun h => ⟨h, .inr rfl⟩, fun h => h.1⟩
    · rw [if_neg h2]
      by_cases h1 : w.1 = l
      · rw [if_pos h1, List.mem_cons, or_comm]
        exact or_congr_right ⟨fun h => ⟨h, .inl h1⟩, fun h => h.1⟩
      · rw [if_neg h1]
        exact ⟨.inl, fun h' => h'.resolve_right fun h' => h'.2.elim h1 h2⟩

theorem addClause_extends (s : SolverState N S F) (watched : Option Watches) (kind : Clause N) :
    Extends s (s.addClause watched kind).2 :=
  ⟨List.prefix_append _ _, List.prefix_refl _, List.prefix_refl _, List.prefix_refl _,
    fun _ _ h => h⟩

@[simp] theorem addClause_id (s : SolverState N S F) (watched : Option Watches) (kind : Clause N) :
    (s.addClause watched kind).1 = s.clauses.length := rfl

@[simp] theorem addClause_clauses (s : SolverState N S F) (watched : Option Watches)
    (kind : Clause N) : (s.addClause watched kind).2.clauses = s.clauses ++ [kind] := rfl

@[simp] theorem addClause_decisionTracker (s : SolverState N S F) (watched : Option Watches)
    (kind : Clause N) : (s.addClause watched kind).2.decisionTracker = s.decisionTracker := rfl

@[simp] theorem addClause_kindLiterals (s : SolverState N S F) (watched : Option Watches)
    (kind kind' : Clause N) : (s.addClause watched kind).2.kindLiterals kind' = s.kindLiterals kind' :=
  rfl

@[simp] theorem addClause_literals_new (s : SolverState N S F) (watched : Option Watches)
    (kind : Clause N) :
    (s.addClause watched kind).2.literals s.clauses.length = s.kindLiterals kind := by
  have hk : (s.addClause watched kind).2.clauses[s.clauses.length]? = some kind := by simp
  rw [literals_of_kind hk]
  rfl

/-- The clauses of an extended arena: the old ones and the new one. -/
theorem addClause_getElem? {s : SolverState N S F} {watched : Option Watches} {kind kind' : Clause N}
    {id : ClauseId} (h : (s.addClause watched kind).2.clauses[id]? = some kind') :
    s.clauses[id]? = some kind' ∨ (id = s.clauses.length ∧ kind' = kind) := by
  rw [addClause_clauses] at h
  by_cases hid : id < s.clauses.length
  · rw [List.getElem?_append_left hid] at h
    exact .inl h
  · rw [List.getElem?_append_right (Nat.not_lt.mp hid)] at h
    have hz : id - s.clauses.length = 0 := by
      by_contra hne
      obtain ⟨k, hk⟩ := Nat.exists_eq_succ_of_ne_zero hne
      simp [hk] at h
    rw [hz] at h
    exact .inr ⟨Nat.le_antisymm (Nat.sub_eq_zero_iff_le.mp hz) (Nat.not_lt.mp hid),
      (by simpa using h.symm)⟩

/-- What a new clause has to bring: a learnt one its causes. -/
def Derived (s : SolverState N S F) (kind : Clause N) : Prop :=
  ∀ k why, kind = .learnt k → s.learntWhy[k]? = some why →
    (∀ i ∈ why, i < s.clauses.length ∧ i ≠ ClauseId.installRoot) ∧
    ∀ σ : VariableId → Bool, (∀ i ∈ why, ClauseHolds σ (s.literals i)) →
      ClauseHolds σ (s.kindLiterals kind)

/-- Adding a clause whose watches are two of its literals. -/
theorem Arena.addClause {s : SolverState N S F} (h : s.Arena) (watched : Option Watches)
    (kind : Clause N) (hroot : kind ≠ .installRoot) (hclosed : s.Closed kind)
    (hwatch : ∀ w, watched = some w → WatchOk kind (s.kindLiterals kind) w)
    (hderived : s.Derived kind) : (s.addClause watched kind).2.Arena := by
  have he := addClause_extends s watched kind
  have hlit : ∀ id, id < s.clauses.length →
      (s.addClause watched kind).2.literals id = s.literals id :=
    fun id hid => h.literals_extends he hid
  have hcauses : ∀ id why, (s.addClause watched kind).2.causes id = some why →
      s.causes id = some why ∨
        (id = s.clauses.length ∧ ∃ k, kind = .learnt k ∧ s.learntWhy[k]? = some why) := by
    intro id why hwhy
    by_cases hid : id < s.clauses.length
    · rw [h.causes_extends he hid] at hwhy
      exact .inl hwhy
    · have hlt := causes_lt hwhy
      rw [addClause_clauses, List.length_append, List.length_singleton] at hlt
      obtain rfl : id = s.clauses.length :=
        Nat.le_antisymm (Nat.lt_succ_iff.mp hlt) (Nat.not_lt.mp hid)
      simp only [causes, addClause_clauses, List.getElem?_concat_length] at hwhy
      cases kind with
      | learnt k => exact .inr ⟨rfl, k, rfl, hwhy⟩
      | _ => cases hwhy
  constructor
  case root => exact getElem?_of_isPrefix he.clauses h.root
  case root_only =>
    intro id hid
    rcases addClause_getElem? hid with hid | ⟨-, hk⟩
    · exact h.root_only id hid
    · exact absurd hk.symm hroot
  case closed =>
    intro id kind' hid
    rcases addClause_getElem? hid with hid | ⟨-, rfl⟩
    · exact (h.closed id kind' hid).extends he
    · exact hclosed.extends he
  case watched_length => simp [SolverState.addClause, h.watched_length]
  case watched =>
    intro id kind' w hid hw
    rw [addClause_kindLiterals]
    rcases addClause_getElem? hid with hid | ⟨rfl, rfl⟩
    · have hlt : id < s.watchedLiterals.length := by
        rw [h.watched_length]; exact Arena.lt_of_kind hid
      simp only [SolverState.addClause, List.getElem?_append_left hlt] at hw
      exact h.watched id kind' w hid hw
    · simp only [SolverState.addClause, ← h.watched_length, List.getElem?_concat_length,
        Option.some.injEq] at hw
      exact hwatch w hw
  case watches =>
    intro l id hid
    have hold : id ∈ s.watches.getD l [] → (s.addClause watched kind).2.Watching id l := by
      intro hid'
      obtain ⟨kind', w, hk, hw, hl⟩ := h.watches l id hid'
      exact ⟨kind', w, getElem?_of_isPrefix he.clauses hk,
        getElem?_of_isPrefix (List.prefix_append s.watchedLiterals [watched]) hw, hl⟩
    cases watched with
    | none => exact hold hid
    | some w =>
        rcases mem_startWatching.mp hid with hid | ⟨rfl, hl⟩
        · exact hold hid
        · refine ⟨kind, w, by simp, ?_, fun _ => hl⟩
          show (s.watchedLiterals ++ [some w])[s.clauses.length]? = _
          rw [← h.watched_length, List.getElem?_concat_length]
  case assertions =>
    intro a ha
    obtain ⟨hlt, hl⟩ := h.assertions a ha
    refine ⟨?_, (hlit a.2 hlt).trans hl⟩
    rw [addClause_clauses, List.length_append]
    exact Nat.lt_add_right _ hlt
  case learnt_length => exact h.learnt_length
  case learnt_ids =>
    intro id hid
    refine ⟨?_, (h.learnt_ids id hid).2⟩
    rw [addClause_clauses, List.length_append]
    exact Nat.lt_add_right _ (h.learnt_ids id hid).1
  case requirers =>
    intro e hmem r hr
    exact getElem?_of_isPrefix he.clauses (h.requirers e hmem r hr)
  case derivation =>
    constructor
    · intro id why hwhy i hi
      rcases hcauses id why hwhy with hold | ⟨rfl, k, hk, hw⟩
      · exact h.derivation.lt hold i hi
      · exact ((hderived k why hk hw).1 i hi).1
    · intro id why hwhy σ hσ
      rcases hcauses id why hwhy with hold | ⟨rfl, k, hk, hw⟩
      · rw [hlit id (causes_lt hold)]
        refine h.derivation.entails hold σ fun i hi => ?_
        have := hσ i hi
        rwa [hlit i (h.causes_valid id why hold i hi).1] at this
      · rw [addClause_literals_new]
        refine (hderived k why hk hw).2 σ fun i hi => ?_
        have := hσ i hi
        rwa [hlit i ((hderived k why hk hw).1 i hi).1] at this
  case causes_valid =>
    intro id why hwhy i hi
    have hlen : ∀ j, j < s.clauses.length → j < (s.addClause watched kind).2.clauses.length := by
      intro j hj
      rw [addClause_clauses, List.length_append]
      exact Nat.lt_add_right _ hj
    rcases hcauses id why hwhy with hold | ⟨rfl, k, hk, hw⟩
    · exact ⟨hlen i (h.causes_valid id why hold i hi).1, (h.causes_valid id why hold i hi).2⟩
    · exact ⟨hlen i ((hderived k why hk hw).1 i hi).1, ((hderived k why hk hw).1 i hi).2⟩

theorem Core.addClause {s : SolverState N S F} (h : s.Core) (watched : Option Watches)
    (kind : Clause N) (hroot : kind ≠ .installRoot) (hclosed : s.Closed kind)
    (hwatch : ∀ w, watched = some w → WatchOk kind (s.kindLiterals kind) w)
    (hderived : s.Derived kind) : (s.addClause watched kind).2.Core where
  tracker := h.tracker
  arena := h.arena.addClause watched kind hroot hclosed hwatch hderived
  supported := h.supported_extends (addClause_extends s watched kind)
  reasons := by
    intro e he
    rw [addClause_clauses, List.length_append]
    exact Nat.lt_add_right _ (h.reasons e he)

/-- A clause that is not learnt brings no causes. -/
theorem derived_of_not_learnt {s : SolverState N S F} {kind : Clause N}
    (h : ∀ k, kind ≠ .learnt k) : s.Derived kind := fun k _ hk _ => absurd hk (h k)

/-! ## Changing the trail -/

/-- Replace the tracker. -/
def withTracker (s : SolverState N S F) (t : DecisionTracker) : SolverState N S F :=
  { s with decisionTracker := t }

theorem withTracker_extends (s : SolverState N S F) (t : DecisionTracker) :
    Extends s (s.withTracker t) :=
  ⟨List.prefix_refl _, List.prefix_refl _, List.prefix_refl _, List.prefix_refl _, fun _ _ h => h⟩

theorem Arena.withTracker {s : SolverState N S F} (h : s.Arena) (t : DecisionTracker) :
    (s.withTracker t).Arena :=
  ⟨h.root, h.root_only, h.closed, h.watched_length, h.watched, h.watches, h.assertions,
    h.learnt_length, h.learnt_ids, h.requirers, h.derivation, h.causes_valid⟩

/-- **Append an entry** that opens a level or is forced by a clause of the arena. -/
theorem Core.push {s : SolverState N S F} (h : s.Core) {d : Decision} {level : Nat}
    (hd : s.decisionTracker.assignedValue d.var = none) (hpos : 1 ≤ level)
    (hle : ∀ e ∈ s.decisionTracker.trail, e.level ≤ level)
    (hreason : d.derivedFrom < s.clauses.length)
    (hs : (∀ e ∈ s.decisionTracker.trail, e.level < level) ∨
      (d.lit ∈ s.literals d.derivedFrom ∧
        ∀ l ∈ s.literals d.derivedFrom, l ≠ d.lit → s.decisionTracker.eval l = some false)) :
    (s.withTracker (s.decisionTracker.push d level)).Core where
  tracker := h.tracker.push hd hpos hle
  arena := h.arena.withTracker _
  supported := by
    show ((s.decisionTracker.push d level).trail).Supported s.literals
    rw [DecisionTracker.push_trail h.tracker hd]
    refine h.supported.snoc ?_
    rcases hs with ho | ⟨hmem, hothers⟩
    · exact .inl ho
    · exact .inr ⟨hmem, fun l hl hne => h.tracker.eval_false_iff.mp (hothers l hl hne)⟩
  reasons := by
    show ∀ e ∈ (s.decisionTracker.push d level).trail, e.reason < s.clauses.length
    rw [DecisionTracker.push_trail h.tracker hd]
    intro e he
    rcases List.mem_append.mp he with he | he
    · exact h.reasons e he
    · rw [List.mem_singleton.mp he]
      exact hreason

/-- **Pop a suffix.** -/
theorem Core.rewind {s : SolverState N S F} (h : s.Core) {t : DecisionTracker}
    (ht : s.decisionTracker.Rewound t) : (s.withTracker t).Core where
  tracker := ht.wf
  arena := h.arena.withTracker _
  supported := h.supported.of_prefix ht.trail
  reasons := fun e he => h.reasons e (ht.trail.subset he)

/-- Moving the propagation index or the sync floor. -/
theorem Core.with_index {s : SolverState N S F} (h : s.Core) {i j : Nat}
    (hi : i ≤ s.decisionTracker.stack.length) (hj : j ≤ s.decisionTracker.stack.length) :
    (s.withTracker { s.decisionTracker with propagateIndex := i, syncFloor := j }).Core where
  tracker := h.tracker.with_index hi hj
  arena := h.arena.withTracker _
  supported := h.supported
  reasons := h.reasons

end SolverState

end Resolvo
