import Resolvo.Correctness.EncoderCall

/-!
# `Correctness.Searched` — what the encoder relies on survives the search

Between two calls of the encoder the solver assigns and unassigns variables, moves watches and learns
clauses. None of that touches the tables of the encoder, and a learnt clause consists of literals of
earlier clauses, so the invariant of the encoder only needs the trail to be well formed afterwards.
-/

set_option linter.unusedSectionVars false

namespace Resolvo

open Sat Relation SolverState

variable {N S F : Type} [DecidableEq N] [DecidableEq S]

/-! ## The literals of the clauses -/

section Literals

variable {P : DependencyProvider N S} {problem : Problem S} {ordered : Prop} {enc : Encoder N S F}

/-- What a literal of a clause can be: the root's, a solvable's, which is registered if it is positive, or
    an auxiliary variable's. -/
def Encoder.Known (P : DependencyProvider N S) (enc : Encoder N S F) (l : Literal) : Prop :=
  l.var = VariableId.root ∨
  (∃ x, enc.state.IsVar (.solvable x) l.var ∧ (l.negate = false → enc.Registered P l.var)) ∨
  ∃ o, enc.state.variableMap.origins[l.var]? = some o ∧ VariableMap.IsAuxiliary o

theorem Encoder.Known.negative {p : SolvableIdOrRoot S} {v : VariableId}
    (hv : enc.state.IsVar p v) : enc.Known P (negative v) := by
  cases p with
  | root => exact .inl (Option.some.inj hv).symm
  | solvable x => exact .inr (.inl ⟨x, hv, fun hn => by cases hn⟩)

theorem Encoder.Known.auxiliary {l : Literal} {o : VariableOrigin N S}
    (ho : enc.state.variableMap.origins[l.var]? = some o) (haux : VariableMap.IsAuxiliary o) :
    enc.Known P l := .inr (.inr ⟨o, ho, haux⟩)

theorem Encoder.Known.registered {v : VariableId} (h : enc.Registered P v) :
    enc.Known P (positive v) := by
  obtain ⟨x, hx, hr⟩ := h
  exact .inr (.inl ⟨x, hx, fun _ => ⟨x, hx, hr⟩⟩)

/-- The literals of a requires clause. -/
theorem EncOk.requires_known (h : EncOk P problem ordered enc) {parent : VariableId}
    {condition : Option DisjunctionId} {r : Requirement}
    (ho : Origin P problem enc.state (.requires parent condition r)) {l : Literal}
    (hl : l ∈ enc.state.kindLiterals (.requires parent condition r)) : enc.Known P l := by
  rcases List.mem_cons.mp hl with rfl | hl
  · cases condition with
    | none =>
        rcases ho with ho | ⟨p, hp, -⟩
        · exact .auxiliary ho trivial
        · exact .negative hp
    | some d =>
        obtain ⟨p, c, conj, disjunction, hp, -⟩ := ho
        exact .negative hp
  rcases List.mem_append.mp hl with hl | hl
  · cases condition with
    | none => cases hl
    | some d =>
        obtain ⟨p, c, conj, disjunction, -, -, hd, -, hdis⟩ := ho
        simp only [Option.bind_some, hd, Option.map_some, Option.getD_some] at hl
        obtain ⟨vs, -, ⟨x, -, v, hv, rfl⟩ | ⟨-, v, hv, rfl⟩⟩ := hdis.sound l hl
        · exact .registered (h.regDisjunctions disjunction (List.mem_of_getElem? hd) v hl)
        · exact .auxiliary hv trivial
  · obtain ⟨v, hv, rfl⟩ := List.mem_map.mp hl
    cases hr : enc.state.requirementToSortedCandidates.get? r with
    | none => simp [IndexMap.getD, hr] at hv
    | some vars =>
        simp only [IndexMap.getD, hr, Option.getD_some] at hv
        exact .registered (h.regCandidates r vars hr v hv)

/-- The literals of a learnt clause. -/
theorem EncOk.learnt_known (h : EncOk P problem ordered enc) {c : List Literal}
    (hc : c ∈ enc.state.learntClauses) {l : Literal} (hl : l ∈ c) : enc.Known P l := by
  have hlt := h.learntVars c hc l hl
  cases ho : enc.state.variableMap.origins[l.var]? with
  | none => exact absurd (List.getElem?_eq_none_iff.mp ho) (Nat.not_le_of_lt hlt)
  | some o =>
      cases o with
      | root => exact .inl ((h.tables.vars.root _).mp ho)
      | solvable x =>
          have hx := (h.tables.vars.lookup_iff x l.var).mpr ho
          refine .inr (.inl ⟨x, hx, fun hn => h.regLearnt c hc l.var x ?_ hx⟩)
          obtain ⟨v, n⟩ := l
          obtain rfl : n = false := hn
          exact hl
      | forbidMultiple name => exact .auxiliary ho trivial
      | atLeastOne name => exact .auxiliary ho trivial
      | constrainsViolation vs => exact .auxiliary ho trivial
      | requiresGate r => exact .auxiliary ho trivial

/-- **Every literal of a clause is known.** -/
theorem EncOk.known (h : EncOk P problem ordered enc) {id : ClauseId} {l : Literal}
    (hl : l ∈ enc.state.literals id) : enc.Known P l := by
  cases hk : enc.state.clauses[id]? with
  | none => simp [SolverState.literals, hk] at hl
  | some kind =>
      rw [literals_of_kind hk] at hl
      have ho : kind ≠ .installRoot → (∀ k, kind ≠ .learnt k) → Origin P problem enc.state kind :=
        h.origins id kind hk
      cases kind with
      | installRoot => cases hl
      | learnt k =>
          cases hc : enc.state.learntClauses[k]? with
          | none => simp [SolverState.kindLiterals, Clause.literals, hc] at hl
          | some c =>
              simp only [SolverState.kindLiterals, Clause.literals, hc, Option.getD_some] at hl
              exact h.learnt_known (List.mem_of_getElem? hc) hl
      | requires parent condition r =>
          exact h.requires_known (ho (fun h => by cases h) fun _ h => by cases h) hl
      | forbidMultipleInstances a b name =>
          obtain ⟨tr, i, j, htr, hj, hi, hb⟩ := ho (fun h => by cases h) fun _ h => by cases h
          rcases List.mem_pair.mp hl with rfl | rfl
          · obtain ⟨x, -, hx⟩ := (h.tables.trackers name tr htr).vars a (List.mem_of_getElem? hj)
            exact .negative hx
          · exact .auxiliary ((h.tables.trackers name tr htr).helpers _ (List.mem_of_getElem? hi))
              trivial
      | constrains parent forbidden vs =>
          obtain ⟨p, x, hp, hx, -⟩ := ho (fun h => by cases h) fun _ h => by cases h
          rcases List.mem_pair.mp hl with rfl | rfl
          · exact .negative hp
          · exact .negative hx
      | constrainsExcluded candidate aux vs =>
          obtain ⟨x, hx, haux, -⟩ := ho (fun h => by cases h) fun _ h => by cases h
          rcases List.mem_pair.mp hl with rfl | rfl
          · exact .negative hx
          · exact .auxiliary haux trivial
      | constrainsParent parent aux vs =>
          obtain ⟨p, hp, haux, -⟩ := ho (fun h => by cases h) fun _ h => by cases h
          rcases List.mem_pair.mp hl with rfl | rfl
          · exact .negative hp
          · exact .auxiliary (h.tables.auxs vs aux haux) trivial
      | lock locked other =>
          obtain ⟨name, l', x, -, -, -, -, hv⟩ := ho (fun h => by cases h) fun _ h => by cases h
          rcases List.mem_pair.mp hl with rfl | rfl
          · exact .negative hv
          · exact .inl rfl
      | excluded v reason =>
          obtain ⟨x, hv, -⟩ := ho (fun h => by cases h) fun _ h => by cases h
          rw [List.mem_singleton.mp hl]
          exact .negative hv
      | anyOf selected other =>
          have ho := ho (fun h => by cases h) fun _ h => by cases h
          rcases ho with ⟨p, r, hg, hp, -⟩ | ⟨name, x, ho, hx, -⟩
          · rcases List.mem_pair.mp hl with rfl | rfl
            · exact .auxiliary (h.tables.gates r selected hg) trivial
            · exact .negative hp
          · rcases List.mem_pair.mp hl with rfl | rfl
            · exact .auxiliary ho trivial
            · exact .negative hx

/-- A variable of a clause was handed out. -/
theorem EncOk.lt_of_mem (h : EncOk P problem ordered enc) {id : ClauseId} {l : Literal}
    (hl : l ∈ enc.state.literals id) : l.var < enc.state.variableMap.origins.length := by
  rcases h.known hl with hr | ⟨x, hx, -⟩ | ⟨o, ho, -⟩
  · rw [hr]
    exact (List.getElem?_eq_some_iff.mp ((h.tables.vars.root _).mpr rfl)).1
  · exact (List.getElem?_eq_some_iff.mp ((h.tables.vars.lookup_iff x _).mp hx)).1
  · exact (List.getElem?_eq_some_iff.mp ho).1

/-- A solvable that a clause can make true is registered. -/
theorem EncOk.registered_of_mem (h : EncOk P problem ordered enc) {id : ClauseId} {v : VariableId}
    {x : S} (hl : positive v ∈ enc.state.literals id) (hx : enc.state.IsVar (.solvable x) v) :
    enc.Registered P v := by
  have horigin := (h.tables.vars.lookup_iff x v).mp hx
  rcases h.known hl with rfl | ⟨y, hy, hreg⟩ | ⟨o, ho, haux⟩
  · exact absurd rfl (h.tables.vars.lookup_ne_root hx)
  · exact hreg rfl
  · obtain rfl : VariableOrigin.solvable x = o := Option.some.inj (horigin.symm.trans ho)
    exact haux.elim

end Literals

/-! ## Between two calls of the encoder -/

/-- What the search does to the state between two calls of the encoder. -/
structure Searched (s s' : SolverState N S F) : Prop where
  variableMap : s'.variableMap = s.variableMap
  candidates : s'.requirementToSortedCandidates = s.requirementToSortedCandidates
  disjunctions : s'.disjunctions = s.disjunctions
  packages : s'.clausesAddedForPackage = s.clausesAddedForPackage
  solvables : s'.clausesAddedForSolvable = s.clausesAddedForSolvable
  allowMultipleNames : s'.allowMultipleNames = s.allowMultipleNames
  atMostOneTrackers : s'.atMostOneTrackers = s.atMostOneTrackers
  atLeastOneTracker : s'.atLeastOneTracker = s.atLeastOneTracker
  constrainsAuxVars : s'.constrainsAuxVars = s.constrainsAuxVars
  requiresAuxVars : s'.requiresAuxVars = s.requiresAuxVars
  requirers : s'.requiresGateRequirers = s.requiresGateRequirers
  negativeAssertions : s'.negativeAssertions = s.negativeAssertions
  deferred : s'.deferredRequirements = s.deferredRequirements
  clauses : ∃ ids : List LearntClauseId, s'.clauses = s.clauses ++ ids.map Clause.learnt
  /-- A learnt clause consists of literals of earlier clauses. -/
  learnt : ∃ learnt : List (List Literal), s'.learntClauses = s.learntClauses ++ learnt ∧
    ∀ c ∈ learnt, ∀ l ∈ c, ∃ id, l ∈ s.literals id
  learntWhy : s.learntWhy <+: s'.learntWhy

section Searched

variable {P : DependencyProvider N S} {problem : Problem S} {A : RunFacts} {s s' : SolverState N S F}
  {level level' : Nat}

theorem Searched.grows (h : Searched s s') : s.Grows s' where
  clauses := by
    obtain ⟨ids, hids⟩ := h.clauses
    exact ⟨_, hids.symm⟩
  learntClauses := by
    obtain ⟨learnt, hlearnt, -⟩ := h.learnt
    exact ⟨_, hlearnt.symm⟩
  learntWhy := h.learntWhy
  disjunctions := h.disjunctions ▸ List.prefix_refl _
  candidates := fun r vars hr => h.candidates ▸ hr
  vars := h.variableMap ▸ .refl _
  gates := fun r g hg => h.requiresAuxVars ▸ hg
  auxs := fun vs a ha => h.constrainsAuxVars ▸ ha
  trackers := fun name tr htr =>
    ⟨tr, h.atMostOneTrackers ▸ htr, List.prefix_refl _, List.prefix_refl _⟩
  packages := h.packages ▸ fun _ hp => hp
  solvables := h.solvables ▸ fun _ hp => hp
  allowMultiple := h.allowMultipleNames ▸ fun _ hp => hp
  assertions := h.negativeAssertions ▸ fun _ hp => hp
  requirers := fun g => h.requirers ▸ fun _ hp => hp

theorem Searched.refl (s : SolverState N S F) : Searched s s :=
  ⟨rfl, rfl, rfl, rfl, rfl, rfl, rfl, rfl, rfl, rfl, rfl, rfl, rfl, ⟨[], by simp⟩, ⟨[], by simp⟩,
    List.prefix_refl _⟩

/-- A clause of the problem was there before the search. -/
theorem Searched.clause_of (h : Searched s s') {id : ClauseId} {kind : Clause N}
    (hk : s'.clauses[id]? = some kind) (hlearnt : ∀ k, kind ≠ .learnt k) :
    s.clauses[id]? = some kind := by
  obtain ⟨ids, hids⟩ := h.clauses
  rw [hids, List.getElem?_append] at hk
  split at hk
  · exact hk
  · obtain ⟨k, -, rfl⟩ := List.mem_map.mp (List.mem_of_getElem? hk)
    exact absurd rfl (hlearnt k)

theorem Searched.isVar_iff (h : Searched s s') {p : SolvableIdOrRoot S} {v : VariableId} :
    s'.IsVar p v ↔ s.IsVar p v := by
  rw [SolverState.IsVar, SolverState.IsVar, h.variableMap]

theorem Searched.registered (h : Searched s s') {v : VariableId}
    (hr : (Encoder.idle level s).Registered P v) : (Encoder.idle level' s').Registered P v := by
  obtain ⟨x, hx, hr⟩ := hr
  refine ⟨x, h.isVar_iff.mpr hx, hr.imp (fun hm => ?_) fun ht => ht.imp id fun hv => ?_⟩
  · exact h.grows.allowMultiple hm
  · show v ∈ (s'.atMostOneTrackers.getD (P.solvableName x) {}).vars
    rw [h.atMostOneTrackers]
    exact hv

/-- The invariant of the encoder survives the search. -/
theorem EncOk.searched {ordered : Prop} (hok : EncOk P problem ordered (.idle level s))
    (h : Searched s s') : EncOk P problem ordered (.idle level' s') where
  tables := hok.tables.same h.variableMap h.requiresAuxVars h.constrainsAuxVars h.atMostOneTrackers
    h.atLeastOneTracker h.candidates h.disjunctions
  origins := fun id kind hk hinstall hlearnt =>
    (hok.origins id kind (h.clause_of hk hlearnt) hinstall hlearnt).mono h.grows
  deferred := by
    intro e he entry hentry
    obtain ⟨hd, hc⟩ := hok.deferred e (h.deferred ▸ he) entry hentry
    exact ⟨hd.mono h.grows, hc⟩
  newEntries := fun e he => by cases he
  tasks := fun t ht => by cases ht
  unique := List.Pairwise.nil
  multiNames := by
    intro name hn
    obtain ⟨hm, hp⟩ := hok.multiNames name (h.allowMultipleNames ▸ hn)
    exact ⟨hm, h.grows.packages hp.1, rfl⟩
  multi := by
    intro name hp hm
    exact h.grows.allowMultiple (hok.multi name ⟨h.packages ▸ hp.1, rfl⟩ hm)
  pendingForbid := fun e he => by cases he
  trackers := by
    intro ho name tr htr
    obtain ⟨hp, hm⟩ := hok.trackers ho name tr (h.atMostOneTrackers ▸ htr)
    exact ⟨⟨h.grows.packages hp.1, rfl⟩, hm⟩
  seen := fun v hv => by cases hv
  gateClauses := by
    intro r g hg
    obtain ⟨id, hid⟩ := hok.gateClauses r g (h.requiresAuxVars ▸ hg)
    exact ⟨id, getElem?_of_isPrefix h.grows.clauses hid⟩
  auxClauses := by
    intro vs a ha x hx
    obtain ⟨f, id, hf, hid⟩ := hok.auxClauses vs a (h.constrainsAuxVars ▸ ha) x hx
    exact ⟨f, id, h.isVar_iff.mpr hf, getElem?_of_isPrefix h.grows.clauses hid⟩
  regCandidates := fun r vars hr v hv =>
    h.registered (hok.regCandidates r vars (h.candidates ▸ hr) v hv)
  regDisjunctions := fun d hd v hv =>
    h.registered (hok.regDisjunctions d (h.disjunctions ▸ hd) v hv)
  regLearnt := by
    obtain ⟨learnt, hlearnt, hfrom⟩ := h.learnt
    intro c hc v x hv hx
    rcases List.mem_append.mp (hlearnt ▸ hc) with hc | hc
    · exact h.registered (hok.regLearnt c hc v x hv (h.isVar_iff.mp hx))
    · obtain ⟨id, hl⟩ := hfrom c hc _ hv
      exact h.registered (hok.registered_of_mem hl (h.isVar_iff.mp hx))
  learntVars := by
    obtain ⟨learnt, hlearnt, hfrom⟩ := h.learnt
    intro c hc l hl
    show l.var < s'.variableMap.origins.length
    rw [h.variableMap]
    rcases List.mem_append.mp (hlearnt ▸ hc) with hc | hc
    · exact hok.learntVars c hc l hl
    · obtain ⟨id, hid⟩ := hfrom c hc l hl
      exact hok.lt_of_mem hid

theorem PackagesEncoded.searched (hp : PackagesEncoded s) (h : Searched s s') : PackagesEncoded s' where
  atMostOne := fun name tr htr => (hp.atMostOne name tr (h.atMostOneTrackers ▸ htr)).mono h.grows
  atLeastOne := by
    intro name v hv w hw
    obtain ⟨id, hid⟩ := hp.atLeastOne name v (h.atLeastOneTracker ▸ hv) w (h.atMostOneTrackers ▸ hw)
    exact ⟨id, getElem?_of_isPrefix h.grows.clauses hid⟩

/-- **The search keeps the invariant of the encoder**, if it leaves a well-formed trail. -/
theorem Running.searched (hr : Running P problem A (.idle level s)) (h : Searched s s')
    (ht : EncTrail P A (.idle level' s')) : Running P problem A (.idle level' s') where
  good := ⟨hr.good.ok.searched h, ht⟩
  packages := hr.packages.searched h
  coverage := by
    have ha : Advances P problem (Encoder.idle level s) (Encoder.idle level' s') :=
      ⟨h.grows, fun p r c conj hd => .inl (by
        obtain ⟨entries, he, hd⟩ := hd
        exact ⟨entries, h.deferred ▸ he, hd⟩), fun t ht => by cases ht⟩
    exact hr.coverage.advance ha (fun p hp => .inl (h.solvables ▸ hp))
      fun name hn => .inl (h.packages ▸ hn)

end Searched

end Resolvo
