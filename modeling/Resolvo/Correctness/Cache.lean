import Resolvo.Lib.Fold
import Resolvo.Model.Cache

/-!
# `Correctness.Cache` — marks of requests in flight

A package is marked from the moment a future asks the provider for its candidates until the answer is
stored. As long as that future is polled, the mark is removed; when the future is dropped, it stays. The
marks are therefore those of the live requests and those of the dropped ones, which is proved as an
invariant of every run, and a run that drops no request leaves the cache usable.
-/

namespace Resolvo

namespace Async

variable {N S : Type} [DecidableEq N] [DecidableEq S]

namespace Fut

mutual

/-- How many requests for the candidates of a package a future has outstanding. -/
def requests (name : N) : Fut N S → Nat
  | .requesting n _ => if n = name then 1 else 0
  | .joining parts _ => requestsAll name parts
  | _ => 0

def requestsAll (name : N) : List (Fut N S) → Nat
  | [] => 0
  | f :: fs => requests name f + requestsAll name fs

end

/-- Some part of the future listens to the request of another one. -/
inductive Listens (event : Event) (name : N) : Fut N S → Prop
  | here (next : Candidates S → Prog N S) : Listens event name (.listening event name next)
  | part {parts : List (Fut N S)} {next : Option (List (Reply S)) → Prog N S} {f : Fut N S}
      (hf : f ∈ parts) (h : Listens event name f) : Listens event name (.joining parts next)

/-- Some `expect` did not hold. -/
inductive Panics : Fut N S → Prop
  | here : Panics .panicked
  | part {parts : List (Fut N S)} {next : Option (List (Reply S)) → Prog N S} {f : Fut N S}
      (hf : f ∈ parts) (h : Panics f) : Panics (.joining parts next)

/-- The requests that a step drops: those of the parts of a join that failed. -/
def drops : List Nat → Fut N S → Set N
  | [], .joining parts _ => if parts.any isFailed then {name | 0 < requestsAll name parts} else ∅
  | i :: path, .joining parts _ => (parts[i]?).elim ∅ (drops path)
  | _, _ => ∅

section Basic

omit [DecidableEq S]

theorem requestsAll_eq (name : N) (l : List (Fut N S)) :
    requestsAll name l = (l.map (requests name)).sum := by
  induction l with
  | nil => rfl
  | cons f l ih =>
    unfold requestsAll
    rw [ih, List.map_cons, List.sum_cons]

@[simp] theorem requests_joining (name : N) (parts : List (Fut N S))
    (next : Option (List (Reply S)) → Prog N S) :
    requests name (.joining parts next) = (parts.map (requests name)).sum := by
  rw [← requestsAll_eq]
  unfold requests
  rfl

@[simp] theorem requests_requesting (name n : N) (next : Candidates S → Prog N S) :
    requests name (.requesting n next) = if n = name then 1 else 0 := by
  unfold requests
  rfl

@[simp] theorem requests_run (name : N) (p : Prog N S) : requests name (.run p) = 0 := by
  unfold requests
  rfl

end Basic

/-- A state without requests, listeners and failed expectations. -/
structure Still (f : Fut N S) : Prop where
  requests : ∀ name, f.requests name = 0
  listens : ∀ event name, ¬ f.Listens event name
  panics : ¬ f.Panics

section Still

omit [DecidableEq S]

theorem still_run (p : Prog N S) : Still (.run p) where
  requests name := requests_run name p
  listens event name h := by cases h
  panics h := by cases h

theorem still_awaiting (next : Prog N S) : Still (.awaiting next) where
  requests name := by
    unfold Fut.requests
    rfl
  listens event name h := by cases h
  panics h := by cases h

theorem still_done (reply : Reply S) : Still (.done reply : Fut N S) where
  requests name := by
    unfold Fut.requests
    rfl
  listens event name h := by cases h
  panics h := by cases h

theorem still_failed : Still (.failed : Fut N S) where
  requests name := by
    unfold Fut.requests
    rfl
  listens event name h := by cases h
  panics h := by cases h

/-- Parts that have not started are still. -/
theorem still_start (parts : List (Prog N S)) (next : Option (List (Reply S)) → Prog N S) :
    Still (.joining (parts.map .run) next) where
  requests name := by
    rw [requests_joining]
    induction parts with
    | nil => rfl
    | cons p parts ih =>
      rw [List.map_cons, List.map_cons, List.sum_cons, ih, requests_run]
  listens event name h := by
    cases h with
    | part hf h =>
      obtain ⟨p, -, rfl⟩ := List.mem_map.mp hf
      cases h
  panics h := by
    cases h with
    | part hf h =>
      obtain ⟨p, -, rfl⟩ := List.mem_map.mp hf
      cases h

/-- A future that succeeded is still. -/
theorem still_of_reply {f : Fut N S} {reply : Reply S} (hf : f.reply? = some reply) : Still f := by
  cases f with
  | done reply => exact still_done reply
  | _ => cases hf

end Still

end Fut

/-! ## The invariant -/

/-- How the marks in the cache relate to the outstanding requests and to the listeners. A package in
    `orphans` is marked although its request was dropped. -/
structure Marks (orphans : Set N) (cache : Cache N S) (requests : N → Nat) (listens : Event → N → Prop) :
    Prop where
  live : ∀ name, name ∉ orphans →
    requests name = if (cache.packageNameToCandidatesInFlight name).isSome then 1 else 0
  orphan : ∀ name ∈ orphans,
    requests name = 0 ∧ (cache.packageNameToCandidatesInFlight name).isSome
  missing : ∀ name, (cache.packageNameToCandidatesInFlight name).isSome →
    cache.packageNameToCandidates name = none
  listening : ∀ event name, listens event name →
    event ∈ cache.notified ∧ (cache.packageNameToCandidates name).isSome ∨
      cache.packageNameToCandidatesInFlight name = some event
  fresh : ∀ name event, cache.packageNameToCandidatesInFlight name = some event → event < cache.nextEvent
  notified : ∀ event ∈ cache.notified, event < cache.nextEvent ∧
    ∀ name, cache.packageNameToCandidatesInFlight name ≠ some event
  inj : ∀ name name' event, cache.packageNameToCandidatesInFlight name = some event →
    cache.packageNameToCandidatesInFlight name' = some event → name = name'

namespace Marks

variable {orphans : Set N} {cache : Cache N S} {requests requests' : N → Nat}
  {listens listens' : Event → N → Prop}

section Basic

omit [DecidableEq N] [DecidableEq S]

theorem empty : Marks ∅ ({} : Cache N S) (fun _ => 0) (fun _ _ => False) where
  live name _ := rfl
  orphan name h := h.elim
  missing name _ := rfl
  listening event name h := h.elim
  fresh name event h := by cases h
  notified event h := by cases h
  inj name name' event h := by cases h

/-- The same requests and no more listeners. -/
theorem congr (hm : Marks orphans cache requests listens) (hrequests : ∀ name, requests' name = requests name)
    (hlistens : ∀ event name, listens' event name → listens event name) :
    Marks orphans cache requests' listens' where
  live name h := by rw [hrequests, hm.live name h]
  orphan name h := by
    rw [hrequests]
    exact hm.orphan name h
  missing := hm.missing
  listening event name h := hm.listening event name (hlistens event name h)
  fresh := hm.fresh
  notified := hm.notified
  inj := hm.inj

/-- The answers are no part of it. -/
theorem setAnswers (hm : Marks orphans cache requests listens) (answers : Answers S) :
    Marks orphans { cache with answers } requests listens :=
  ⟨hm.live, hm.orphan, hm.missing, hm.listening, hm.fresh, hm.notified, hm.inj⟩

/-- An outstanding request is marked and not dropped. -/
theorem of_pos (hm : Marks orphans cache requests listens) {name : N} (h : 0 < requests name) :
    name ∉ orphans ∧ requests name = 1 ∧ (cache.packageNameToCandidatesInFlight name).isSome := by
  have hnot : name ∉ orphans := by
    intro hmem
    have hzero := (hm.orphan name hmem).1
    omega
  have hlive := hm.live name hnot
  split at hlive
  · rename_i hmark
    exact ⟨hnot, hlive, hmark⟩
  · omega

/-- Dropping futures makes orphans of the requests they had. -/
theorem drop {dropped : N → Nat} (hm : Marks orphans cache (fun name => dropped name + requests name) listens)
    (hlistens : ∀ event name, listens' event name → listens event name) :
    Marks (orphans ∪ {name | 0 < dropped name}) cache requests listens' where
  live name h := by
    rw [Set.mem_union, not_or] at h
    have hzero : dropped name = 0 := Nat.eq_zero_of_not_pos h.2
    have hlive := hm.live name h.1
    rw [hzero, Nat.zero_add] at hlive
    exact hlive
  orphan name h := by
    rcases h with h | h
    · obtain ⟨hzero, hmark⟩ := hm.orphan name h
      exact ⟨by omega, hmark⟩
    · have hpos : 0 < dropped name := h
      have hsum : 0 < dropped name + requests name := by omega
      obtain ⟨-, hone, hmark⟩ := hm.of_pos hsum
      exact ⟨by omega, hmark⟩
  missing := hm.missing
  listening event name h := hm.listening event name (hlistens event name h)
  fresh := hm.fresh
  notified := hm.notified
  inj := hm.inj

end Basic

section Updates

omit [DecidableEq N] [DecidableEq S]

variable {cache' : Cache N S} {name : N}

/-- Asking the provider marks the package with a fresh event. -/
theorem request [DecidableEq N] (hm : Marks orphans cache requests listens)
    (hmark : cache.packageNameToCandidatesInFlight name = none)
    (hmissing : cache.packageNameToCandidates name = none)
    (hself : cache'.packageNameToCandidatesInFlight name = some cache.nextEvent)
    (hother : ∀ n, n ≠ name →
      cache'.packageNameToCandidatesInFlight n = cache.packageNameToCandidatesInFlight n)
    (hcandidates : cache'.packageNameToCandidates = cache.packageNameToCandidates)
    (hnotified : cache'.notified = cache.notified) (hnext : cache'.nextEvent = cache.nextEvent + 1)
    (hrequests : ∀ n, requests' n = (if name = n then 1 else 0) + requests n)
    (hlistens : ∀ event n, listens' event n → listens event n) :
    Marks orphans cache' requests' listens' where
  live n h := by
    have hlive := hm.live n h
    rw [hrequests]
    by_cases hn : name = n
    · subst hn
      rw [hmark] at hlive
      rw [hlive, hself]
      simp
    · rw [if_neg hn, Nat.zero_add, hlive, hother n fun heq => hn heq.symm]
  orphan n h := by
    obtain ⟨hzero, hsome⟩ := hm.orphan n h
    have hn : name ≠ n := by
      rintro rfl
      rw [hmark] at hsome
      cases hsome
    rw [hrequests, if_neg hn, hother n hn.symm]
    exact ⟨by omega, hsome⟩
  missing n h := by
    rw [hcandidates]
    by_cases hn : n = name
    · rw [hn]
      exact hmissing
    · rw [hother n hn] at h
      exact hm.missing n h
  listening event n h := by
    rw [hcandidates, hnotified]
    rcases hm.listening event n (hlistens event n h) with hdone | hflight
    · exact .inl hdone
    · have hn : n ≠ name := by
        rintro rfl
        rw [hmark] at hflight
        cases hflight
      rw [hother n hn]
      exact .inr hflight
  fresh n event h := by
    rw [hnext]
    by_cases hn : n = name
    · rw [hn, hself] at h
      cases h
      exact Nat.lt_succ_self _
    · rw [hother n hn] at h
      exact Nat.lt_succ_of_lt (hm.fresh n event h)
  notified event h := by
    rw [hnotified] at h
    obtain ⟨hlt, hnot⟩ := hm.notified event h
    rw [hnext]
    refine ⟨Nat.lt_succ_of_lt hlt, fun n heq => ?_⟩
    by_cases hn : n = name
    · rw [hn, hself] at heq
      cases heq
      exact Nat.lt_irrefl _ hlt
    · rw [hother n hn] at heq
      exact hnot n heq
  inj n n' event h h' := by
    by_cases hn : n = name
    · by_cases hn' : n' = name
      · rw [hn, hn']
      · rw [hn, hself] at h
        rw [hother n' hn'] at h'
        cases h
        exact absurd (hm.fresh n' _ h') (Nat.lt_irrefl _)
    · rw [hother n hn] at h
      by_cases hn' : n' = name
      · rw [hn', hself] at h'
        cases h'
        exact absurd (hm.fresh n _ h) (Nat.lt_irrefl _)
      · rw [hother n' hn'] at h'
        exact hm.inj n n' event h h'

/-- When the answer is stored the mark is removed and its event notified. -/
theorem arrived [DecidableEq N] {event : Event} (hm : Marks orphans cache requests listens)
    (hpos : 0 < requests name) (hmark : cache.packageNameToCandidatesInFlight name = some event)
    (hself : cache'.packageNameToCandidatesInFlight name = none)
    (hother : ∀ n, n ≠ name →
      cache'.packageNameToCandidatesInFlight n = cache.packageNameToCandidatesInFlight n)
    (hstored : (cache'.packageNameToCandidates name).isSome)
    (hcandidates : ∀ n, n ≠ name → cache'.packageNameToCandidates n = cache.packageNameToCandidates n)
    (hnotified : cache'.notified = event :: cache.notified) (hnext : cache'.nextEvent = cache.nextEvent)
    (hrequests : ∀ n, requests n = (if name = n then 1 else 0) + requests' n)
    (hlistens : ∀ event n, listens' event n → listens event n) :
    Marks orphans cache' requests' listens' where
  live n h := by
    have hlive := hm.live n h
    rw [hrequests] at hlive
    by_cases hn : name = n
    · subst hn
      rw [hmark] at hlive
      rw [hself]
      simp at hlive ⊢
      exact hlive
    · rw [if_neg hn, Nat.zero_add] at hlive
      rw [hlive, hother n fun heq => hn heq.symm]
  orphan n h := by
    obtain ⟨hzero, hsome⟩ := hm.orphan n h
    have hn : n ≠ name := by
      rintro rfl
      omega
    rw [hrequests] at hzero
    rw [hother n hn]
    exact ⟨by omega, hsome⟩
  missing n h := by
    have hn : n ≠ name := by
      rintro rfl
      rw [hself] at h
      cases h
    rw [hother n hn] at h
    rw [hcandidates n hn]
    exact hm.missing n h
  listening event' n h := by
    rw [hnotified, List.mem_cons]
    by_cases hn : n = name
    · subst hn
      refine .inl ⟨?_, hstored⟩
      rcases hm.listening event' n (hlistens event' n h) with hdone | hflight
      · exact .inr hdone.1
      · rw [hmark] at hflight
        cases hflight
        exact .inl rfl
    · rw [hcandidates n hn, hother n hn]
      rcases hm.listening event' n (hlistens event' n h) with hdone | hflight
      · exact .inl ⟨.inr hdone.1, hdone.2⟩
      · exact .inr hflight
  fresh n event' h := by
    rw [hnext]
    have hn : n ≠ name := by
      rintro rfl
      rw [hself] at h
      cases h
    rw [hother n hn] at h
    exact hm.fresh n event' h
  notified event' h := by
    rw [hnotified, List.mem_cons] at h
    rw [hnext]
    have hold : event' < cache.nextEvent ∧
        ∀ n, n ≠ name → cache.packageNameToCandidatesInFlight n ≠ some event' := by
      rcases h with rfl | h
      · exact ⟨hm.fresh name _ hmark, fun n hn heq => hn (hm.inj n name _ heq hmark)⟩
      · obtain ⟨hlt, hnot⟩ := hm.notified event' h
        exact ⟨hlt, fun n _ => hnot n⟩
    refine ⟨hold.1, fun n heq => ?_⟩
    by_cases hn : n = name
    · rw [hn, hself] at heq
      cases heq
    · rw [hother n hn] at heq
      exact hold.2 n hn heq
  inj n n' event' h h' := by
    have hne : ∀ {m}, cache'.packageNameToCandidatesInFlight m = some event' → m ≠ name := by
      rintro m hm' rfl
      rw [hself] at hm'
      cases hm'
    rw [hother n (hne h)] at h
    rw [hother n' (hne h')] at h'
    exact hm.inj n n' event' h h'

end Updates

end Marks

/-! ## One step of a future -/

/-- A future together with the requests and listeners of the other ones. -/
abbrev Beside (orphans : Set N) (cache : Cache N S) (f : Fut N S) (rest : N → Nat)
    (others : Event → N → Prop) : Prop :=
  Marks orphans cache (fun name => f.requests name + rest name)
    fun event name => f.Listens event name ∨ others event name

section Steps

omit [DecidableEq S]

variable {orphans : Set N} {cache cache' : Cache N S} {f f' : Fut N S} {rest : N → Nat}
  {others : Event → N → Prop}

/-- Going on to a still state. -/
theorem Beside.still (hm : Beside orphans cache f rest others) (hrequests : ∀ name, f.requests name = 0)
    (hf' : f'.Still) : Beside orphans cache f' rest others ∧ ¬ f'.Panics := by
  refine ⟨Marks.congr hm (fun name => ?_) fun event name hl => ?_, hf'.panics⟩
  · rw [hrequests, hf'.requests]
  · exact .inr (hl.resolve_left (hf'.listens event name))

/-- `get_or_cache_candidates` up to its first await. -/
theorem getOrCacheCandidates_marks {p : Prog N S} (hm : Beside orphans cache (.run p) rest others)
    (cancel : Bool) (name : N) (next : Candidates S → Prog N S) :
    Beside orphans (cache.getOrCacheCandidates cancel name next).1
        (cache.getOrCacheCandidates cancel name next).2 rest others ∧
      ¬ (cache.getOrCacheCandidates cancel name next).2.Panics := by
  have hnone := fun name => Fut.requests_run name p
  unfold Cache.getOrCacheCandidates
  cases hcandidates : cache.packageNameToCandidates name with
  | some candidates => exact hm.still hnone (Fut.still_run _)
  | none =>
    cases cancel with
    | true => exact hm.still hnone Fut.still_failed
    | false =>
      cases hflight : cache.packageNameToCandidatesInFlight name with
      | some event =>
        -- wait for the request of the future that marked the package
        refine ⟨?_, fun hp => by cases hp⟩
        refine ⟨?_, ?_, hm.missing, ?_, hm.fresh, hm.notified, hm.inj⟩
        · intro n hn
          have hlive := hm.live n hn
          rw [hnone] at hlive
          exact hlive
        · intro n hn
          have horphan := hm.orphan n hn
          rw [hnone] at horphan
          exact horphan
        · rintro event' n (hl | hl)
          · cases hl
            exact .inr hflight
          · exact hm.listening event' n (.inr hl)
      | none =>
        refine ⟨?_, fun hp => by cases hp⟩
        refine Marks.request hm hflight hcandidates (Function.update_self _ _ _)
          (fun n hn => Function.update_of_ne hn _ _) rfl rfl rfl (fun n => ?_) fun event n hl => ?_
        · rw [hnone, Nat.zero_add]
          exact congrArg (· + rest n) (Fut.requests_requesting n name next)
        · rcases hl with hl | hl
          · cases hl
          · exact .inr hl

/-- The end of the provider's `get_candidates`. The notifier is there. -/
theorem candidatesArrived_marks {name : N} {next : Candidates S → Prog N S}
    (hm : Beside orphans cache (.requesting name next) rest others) (candidates : Candidates S) :
    Beside orphans (cache.candidatesArrived candidates name next).1
        (cache.candidatesArrived candidates name next).2 rest others ∧
      ¬ (cache.candidatesArrived candidates name next).2.Panics := by
  have hone : Fut.requests name (.requesting name next : Fut N S) = 1 := by
    rw [Fut.requests_requesting, if_pos rfl]
  have hpos : 0 < Fut.requests name (.requesting name next : Fut N S) + rest name := by omega
  obtain ⟨-, -, hmark⟩ := hm.of_pos hpos
  obtain ⟨event, hevent⟩ := Option.isSome_iff_exists.mp hmark
  unfold Cache.candidatesArrived
  simp only [hevent]
  refine ⟨?_, fun hp => by cases hp⟩
  refine Marks.arrived hm hpos hevent (Function.update_self _ _ _)
    (fun n hn => Function.update_of_ne hn _ _) ?_ (fun n hn => Function.update_of_ne hn _ _) rfl rfl
    (fun n => ?_) fun event n hl => ?_
  · dsimp only
    rw [Function.update_self]
    rfl
  · rw [Fut.requests_run, Fut.requests_requesting, Nat.zero_add]
  · rcases hl with hl | hl
    · cases hl
    · exact .inr hl

/-- A woken listener finds the candidates. -/
theorem wake_marks {event : Event} {name : N} {next : Candidates S → Prog N S}
    (hm : Beside orphans cache (.listening event name next) rest others)
    (hwake : cache.wake event name next = some f') :
    Beside orphans cache f' rest others ∧ ¬ f'.Panics := by
  unfold Cache.wake at hwake
  split at hwake
  · rename_i hnotified
    have hlistening := hm.listening event name (.inl (.here next))
    have hstored := hlistening.resolve_right ((hm.notified event hnotified).2 name)
    obtain ⟨candidates, hcandidates⟩ := Option.isSome_iff_exists.mp hstored.2
    rw [hcandidates] at hwake
    cases hwake
    refine hm.still (fun name => ?_) (Fut.still_run _)
    unfold Fut.requests
    rfl
  · cases hwake

/-- A program goes on to its next step. -/
theorem exec_marks {p : Prog N S} (hm : Beside orphans cache (.run p) rest others) (cancel : Bool) :
    Beside orphans (Fut.exec cancel cache p).1 (Fut.exec cancel cache p).2 rest others ∧
      ¬ (Fut.exec cancel cache p).2.Panics := by
  have hnone := fun name => Fut.requests_run name p
  cases p with
  | ret reply => exact hm.still hnone (Fut.still_done reply)
  | fail => exact hm.still hnone Fut.still_failed
  | access change next =>
    obtain ⟨hm', hsane⟩ := Beside.still hm hnone (Fut.still_run (next (change cache.answers)))
    exact ⟨hm'.setAnswers _, hsane⟩
  | checkCancel next =>
    cases cancel with
    | true => exact hm.still hnone Fut.still_failed
    | false => exact hm.still hnone (Fut.still_run next)
  | await next => exact hm.still hnone (Fut.still_awaiting next)
  | candidates name next => exact getOrCacheCandidates_marks hm cancel name next
  | join parts next => exact hm.still hnone (Fut.still_start parts next)

/-- Parts that all succeeded have no request. -/
theorem requests_of_replies {parts : List (Fut N S)} {replies : List (Reply S)}
    (hreplies : parts.mapM Fut.reply? = some replies) (name : N) :
    (parts.map (Fut.requests name)).sum = 0 := by
  induction parts generalizing replies with
  | nil => rfl
  | cons part parts ih =>
    rw [List.mapM_cons] at hreplies
    obtain ⟨reply, hreply, hreplies⟩ := Option.bind_eq_some_iff.mp hreplies
    obtain ⟨rest, hrest, -⟩ := Option.bind_eq_some_iff.mp hreplies
    rw [List.map_cons, List.sum_cons, (Fut.still_of_reply hreply).requests, ih hrest]

/-- **One step of a future** keeps the marks, up to the requests that it drops, and no `expect` fails. -/
theorem advance_marks [DecidableEq S] {P : DependencyProvider N S} {cancel : Bool} {path : List Nat}
    (hm : Beside orphans cache f rest others) (hsane : ¬ f.Panics)
    (hstep : f.advance P cancel path cache = some (cache', f')) :
    Beside (orphans ∪ f.drops path) cache' f' rest others ∧ ¬ f'.Panics := by
  induction path generalizing f f' rest others with
  | nil =>
    cases f with
    | run p =>
      have hexec : Fut.exec cancel cache p = (cache', f') := Option.some.inj hstep
      have hmarks := exec_marks hm cancel
      rw [hexec] at hmarks
      unfold Fut.drops
      rw [Set.union_empty]
      exact hmarks
    | awaiting next =>
      cases hstep
      unfold Fut.drops
      rw [Set.union_empty]
      exact hm.still (Fut.still_awaiting next).requests (Fut.still_run next)
    | requesting name next =>
      have harrived : cache.candidatesArrived (P.candidatesOf name) name next = (cache', f') :=
        Option.some.inj hstep
      have hmarks := candidatesArrived_marks hm (P.candidatesOf name)
      rw [harrived] at hmarks
      unfold Fut.drops
      rw [Set.union_empty]
      exact hmarks
    | listening event name next =>
      unfold Fut.advance at hstep
      rw [Option.map_eq_some_iff] at hstep
      obtain ⟨f₁, hwake, heq⟩ := hstep
      cases heq
      unfold Fut.drops
      rw [Set.union_empty]
      exact wake_marks hm hwake
    | joining parts next =>
      unfold Fut.advance at hstep
      unfold Fut.drops
      split at hstep
      · rename_i hfailed
        cases hstep
        rw [if_pos hfailed]
        refine ⟨?_, fun hp => by cases hp⟩
        have hsplit : Marks orphans cache
            (fun name => Fut.requestsAll name parts + (Fut.requests name (.run (next none)) + rest name))
            fun event name => Fut.Listens event name (.joining parts next) ∨ others event name := by
          refine Marks.congr hm (fun name => ?_) fun event name hl => hl
          rw [Fut.requests_run, Fut.requests_joining, Fut.requestsAll_eq, Nat.zero_add]
        refine hsplit.drop fun event name hl => ?_
        rcases hl with hl | hl
        · cases hl
        · exact .inr hl
      · rename_i hnot
        rw [if_neg hnot, Set.union_empty]
        rw [Option.map_eq_some_iff] at hstep
        obtain ⟨replies, hreplies, heq⟩ := hstep
        cases heq
        refine hm.still (fun name => ?_) (Fut.still_run _)
        rw [Fut.requests_joining]
        exact requests_of_replies hreplies name
    | _ => cases hstep
  | cons i path ih =>
    cases f with
    | joining parts next =>
      unfold Fut.advance at hstep
      rw [Option.bind_eq_some_iff] at hstep
      obtain ⟨part, hpart, hstep⟩ := hstep
      rw [Option.map_eq_some_iff] at hstep
      obtain ⟨⟨cache₁, part'⟩, hadvance, heq⟩ := hstep
      cases heq
      have hmem := List.mem_of_getElem? hpart
      -- the other parts are beside the one that goes on
      have hbeside : Beside orphans cache part
          (fun name => ((parts.eraseIdx i).map (Fut.requests name)).sum + rest name)
          (fun event name => Fut.Listens event name (.joining parts next) ∨ others event name) := by
        refine Marks.congr hm (fun name => ?_) fun event name hl => ?_
        · have hsum := List.sum_map_eraseIdx hpart (Fut.requests name)
          show part.requests name + (((parts.eraseIdx i).map (Fut.requests name)).sum + rest name)
            = Fut.requests name (.joining parts next) + rest name
          rw [Fut.requests_joining]
          omega
        · rcases hl with hl | hl
          · exact .inl (.part hmem hl)
          · exact hl
      obtain ⟨hm', hsane'⟩ := ih hbeside (fun hp => hsane (.part hmem hp)) hadvance
      unfold Fut.drops
      rw [hpart]
      refine ⟨?_, ?_⟩
      · refine Marks.congr hm' (fun name => ?_) fun event name hl => ?_
        · have hsum := List.sum_map_eraseIdx hpart (Fut.requests name)
          have hset := List.sum_map_set hpart (Fut.requests name) part'
          show Fut.requests name (.joining (parts.set i part') next) + rest name
            = part'.requests name + (((parts.eraseIdx i).map (Fut.requests name)).sum + rest name)
          rw [Fut.requests_joining]
          omega
        · rcases hl with hl | hl
          · cases hl with
            | part hf hl =>
              rcases List.mem_or_eq_of_mem_set hf with hf | rfl
              · exact .inr (.inl (.part hf hl))
              · exact .inl hl
          · exact .inr (.inr hl)
      · intro hp
        cases hp with
        | part hf hp =>
          rcases List.mem_or_eq_of_mem_set hf with hf | rfl
          · exact hsane (.part hf hp)
          · exact hsane' hp
    | _ => cases hstep

end Steps

/-! ## The futures of a call -/

/-- The invariant for a list of futures. -/
structure Sound (orphans : Set N) (cache : Cache N S) (live : List (Fut N S)) : Prop where
  marks : Marks orphans cache (fun name => (live.map (Fut.requests name)).sum)
    fun event name => ∃ f ∈ live, f.Listens event name
  sane : ∀ f ∈ live, ¬ f.Panics

namespace Sound

variable {orphans : Set N} {cache cache' : Cache N S} {live live' : List (Fut N S)} {f f' : Fut N S}

section Basic

omit [DecidableEq S]

theorem perm (h : Sound orphans cache live) (hperm : live'.Perm live) : Sound orphans cache live' where
  marks := by
    refine h.marks.congr (fun name => ?_) fun event name hl => ?_
    · exact (hperm.map _).sum_eq
    · obtain ⟨f, hf, hl⟩ := hl
      exact ⟨f, hperm.mem_iff.mp hf, hl⟩
  sane f hf := h.sane f (hperm.mem_iff.mp hf)

theorem cons (h : Sound orphans cache live) (hf : f.Still) : Sound orphans cache (f :: live) where
  marks := by
    refine h.marks.congr (fun name => ?_) fun event name hl => ?_
    · rw [List.map_cons, List.sum_cons, hf.requests, Nat.zero_add]
    · obtain ⟨g, hg, hl⟩ := hl
      rcases List.mem_cons.mp hg with rfl | hg
      · exact absurd hl (hf.listens event name)
      · exact ⟨g, hg, hl⟩
  sane g hg := by
    rcases List.mem_cons.mp hg with rfl | hg
    · exact hf.panics
    · exact h.sane g hg

theorem of_cons (h : Sound orphans cache (f :: live)) (hf : f.Still) : Sound orphans cache live where
  marks := by
    refine h.marks.congr (fun name => ?_) fun event name hl => ?_
    · rw [List.map_cons, List.sum_cons, hf.requests, Nat.zero_add]
    · obtain ⟨g, hg, hl⟩ := hl
      exact ⟨g, List.mem_cons_of_mem _ hg, hl⟩
  sane g hg := h.sane g (List.mem_cons_of_mem _ hg)

/-- Dropping all futures makes orphans of their requests. -/
theorem dropAll (h : Sound orphans cache live) :
    Sound (orphans ∪ {name | 0 < (live.map (Fut.requests name)).sum}) cache [] where
  marks := by
    have hsplit : Marks orphans cache (fun name => (live.map (Fut.requests name)).sum + 0)
        fun event name => ∃ f ∈ live, f.Listens event name :=
      h.marks.congr (fun name => rfl) fun event name hl => hl
    refine hsplit.drop ?_
    rintro event name ⟨f, hf, -⟩
    cases hf
  sane f hf := by cases hf

end Basic

theorem advance {P : DependencyProvider N S} {cancel : Bool} {path : List Nat}
    (h : Sound orphans cache (f :: live)) (hstep : f.advance P cancel path cache = some (cache', f')) :
    Sound (orphans ∪ f.drops path) cache' (f' :: live) := by
  have hbeside : Beside orphans cache f (fun name => (live.map (Fut.requests name)).sum)
      fun event name => ∃ g ∈ live, g.Listens event name := by
    refine h.marks.congr (fun name => ?_) fun event name hl => ?_
    · rw [List.map_cons, List.sum_cons]
    · rcases hl with hl | ⟨g, hg, hl⟩
      · exact ⟨f, List.mem_cons_self, hl⟩
      · exact ⟨g, List.mem_cons_of_mem _ hg, hl⟩
  obtain ⟨hm, hsane⟩ := advance_marks hbeside (h.sane f List.mem_cons_self) hstep
  refine ⟨?_, ?_⟩
  · refine Marks.congr hm (fun name => ?_) fun event name hl => ?_
    · rw [List.map_cons, List.sum_cons]
    · obtain ⟨g, hg, hl⟩ := hl
      rcases List.mem_cons.mp hg with rfl | hg
      · exact .inl hl
      · exact .inr ⟨g, hg, hl⟩
  · intro g hg
    rcases List.mem_cons.mp hg with rfl | hg
    · exact hsane
    · exact h.sane g (List.mem_cons_of_mem _ hg)

end Sound

namespace Solver

/-- The futures of the call in progress. -/
def live (solver : Solver N S) : List (Fut N S) :=
  match solver.call with
  | none => []
  | some call => call.polled.toList ++ call.pendingResults ++ call.pendingFutures

def requests (solver : Solver N S) (name : N) : Nat := (solver.live.map (Fut.requests name)).sum

/-- The requests a step drops: those of parts of a join that failed, or all when the call fails. -/
def drops (solver : Solver N S) (choice : Choice N S) : Set N :=
  match solver.call, choice with
  | some call, .pollQueued path _ => call.polled.elim ∅ (Fut.drops path)
  | some call, .poll i path _ => (call.pendingFutures[i]?).elim ∅ (Fut.drops path)
  | some call, .result _ =>
      if (call.pendingResults.head?).any Fut.isFailed then {name | 0 < solver.requests name} else ∅
  | some call, .next i _ =>
      if (call.pendingFutures[i]?).any Fut.isFailed then {name | 0 < solver.requests name} else ∅
  | _, _ => ∅

variable {P : DependencyProvider N S} {sorting : List S → Prog N S} {rootDependencies : Dependencies}
  {orphans : Set N} {solver solver' : Solver N S}

omit [DecidableEq S] in
/-- Handling the result of the future that is over. -/
theorem onResult_sound {f : Fut N S} {requests : List (Request N S)} {rest : List (Fut N S)}
    {call' : Call N S} (hlive : solver.live.Perm (f :: rest))
    (hrest : call'.polled.toList ++ call'.pendingResults ++ call'.pendingFutures = rest)
    (hs : Sound orphans solver.cache solver.live)
    (hstep : solver.onResult call' f requests = some solver') :
    Sound (orphans ∪ if f.isFailed then {name | 0 < solver.requests name} else ∅) solver'.cache
      solver'.live := by
  unfold onResult at hstep
  cases f with
  | done reply =>
    cases hstep
    show Sound (orphans ∪ ∅) _ _
    rw [Set.union_empty]
    have hrest' := (hs.perm hlive.symm).of_cons (Fut.still_done reply)
    rw [← hrest] at hrest'
    exact hrest'
  | failed =>
    cases hstep
    exact hs.dropAll
  | _ => cases hstep

/-- **One step of the solver** keeps the marks up to the requests it drops. -/
theorem step_sound {choice : Choice N S} (hs : Sound orphans solver.cache solver.live)
    (hstep : step P sorting rootDependencies solver choice = some solver') :
    Sound (orphans ∪ solver.drops choice) solver'.cache solver'.live := by
  obtain ⟨cache, call⟩ := solver
  cases call with
  | none =>
    cases choice with
    | encode requests =>
      cases hstep
      show Sound (orphans ∪ ∅) _ _
      rw [Set.union_empty]
      exact hs
    | _ => cases hstep
  | some call =>
    obtain ⟨toQueue, polled, pendingResults, pendingFutures⟩ := call
    cases choice with
    | encode requests => cases hstep
    | queue =>
      cases polled with
      | some f => cases hstep
      | none =>
        cases toQueue with
        | nil => cases hstep
        | cons request toQueue =>
          cases hstep
          show Sound (orphans ∪ ∅) _ _
          rw [Set.union_empty]
          exact hs.cons (Fut.still_run _)
    | pollQueued path cancel =>
      obtain ⟨f, hpolled, hstep⟩ := Option.bind_eq_some_iff.mp hstep
      obtain ⟨⟨cache', f'⟩, hadvance, heq⟩ := Option.map_eq_some_iff.mp hstep
      dsimp only at hpolled hadvance
      subst hpolled
      cases heq
      exact hs.advance hadvance
    | settle =>
      obtain ⟨f, hpolled, heq⟩ := Option.map_eq_some_iff.mp hstep
      dsimp only at hpolled heq
      subst hpolled
      show Sound (orphans ∪ ∅) _ _
      rw [Set.union_empty]
      split at heq
      · cases heq
        refine hs.perm ?_
        show (([] ++ (pendingResults ++ [f])) ++ pendingFutures).Perm (f :: (pendingResults ++ pendingFutures))
        rw [List.nil_append, List.append_assoc, List.singleton_append]
        exact List.perm_middle
      · cases heq
        refine hs.perm ?_
        show (([] ++ pendingResults) ++ (pendingFutures ++ [f])).Perm (f :: (pendingResults ++ pendingFutures))
        rw [List.nil_append, ← List.append_assoc]
        exact List.perm_append_singleton f _
    | result requests =>
      cases polled with
      | some f => cases hstep
      | none =>
        cases toQueue with
        | cons request toQueue => cases hstep
        | nil =>
          cases pendingResults with
          | nil => cases hstep
          | cons f pendingResults => exact onResult_sound (.refl _) rfl hs hstep
    | poll i path cancel =>
      cases polled with
      | some f => cases hstep
      | none =>
        cases toQueue with
        | cons request toQueue => cases hstep
        | nil =>
          cases pendingResults with
          | cons f pendingResults => cases hstep
          | nil =>
            obtain ⟨f, hf, hstep⟩ := Option.bind_eq_some_iff.mp hstep
            obtain ⟨⟨cache', f'⟩, hadvance, heq⟩ := Option.map_eq_some_iff.mp hstep
            dsimp only at hf hadvance
            cases heq
            obtain ⟨hi, rfl⟩ := List.getElem?_eq_some_iff.mp hf
            have hfront := hs.perm (List.getElem_cons_eraseIdx_perm hi)
            have hafter := (hfront.advance hadvance).perm (List.set_perm_cons_eraseIdx hi f')
            show Sound (orphans ∪ (pendingFutures[i]?).elim ∅ (Fut.drops path)) _ _
            rw [hf]
            exact hafter
    | next i requests =>
      cases polled with
      | some f => cases hstep
      | none =>
        cases toQueue with
        | cons request toQueue => cases hstep
        | nil =>
          cases pendingResults with
          | cons f pendingResults => cases hstep
          | nil =>
            obtain ⟨f, hf, hstep⟩ := Option.bind_eq_some_iff.mp hstep
            dsimp only at hf
            obtain ⟨hi, rfl⟩ := List.getElem?_eq_some_iff.mp hf
            have hfront : (live ⟨cache, some ⟨[], none, [], pendingFutures⟩⟩).Perm
                (pendingFutures[i] :: pendingFutures.eraseIdx i) :=
              (List.getElem_cons_eraseIdx_perm hi).symm
            have hafter := onResult_sound hfront rfl hs hstep
            show Sound (orphans ∪ if (pendingFutures[i]?).any Fut.isFailed then _ else ∅) _ _
            rw [hf]
            exact hafter
    | finish =>
      cases polled with
      | some f => cases hstep
      | none =>
        cases toQueue with
        | cons request toQueue => cases hstep
        | nil =>
          cases pendingResults with
          | cons f pendingResults => cases hstep
          | nil =>
            cases pendingFutures with
            | cons f pendingFutures => cases hstep
            | nil =>
              cases hstep
              show Sound (orphans ∪ ∅) _ _
              rw [Set.union_empty]
              exact hs

/-! ## Runs -/

/-- The requests dropped along some choices. -/
def dropped (P : DependencyProvider N S) (sorting : List S → Prog N S) (rootDependencies : Dependencies)
    (solver : Solver N S) : List (Choice N S) → Set N
  | [] => ∅
  | choice :: choices =>
      solver.drops choice ∪
        (step P sorting rootDependencies solver choice).elim ∅ fun solver' =>
          dropped P sorting rootDependencies solver' choices

/-- The marks after a run: those of live requests, and those of the dropped ones. -/
theorem run_sound {choices : List (Choice N S)} (hs : Sound orphans solver.cache solver.live)
    (hrun : run P sorting rootDependencies solver choices = some solver') :
    Sound (orphans ∪ dropped P sorting rootDependencies solver choices) solver'.cache solver'.live := by
  induction choices generalizing solver orphans with
  | nil =>
    cases hrun
    unfold dropped
    rw [Set.union_empty]
    exact hs
  | cons choice choices ih =>
    unfold run at hrun
    rw [List.foldlM_cons] at hrun
    obtain ⟨solver₁, hstep, hrest⟩ := Option.bind_eq_some_iff.mp hrun
    have hsound := ih (step_sound hs hstep) hrest
    unfold dropped
    rw [hstep]
    rw [Set.union_assoc] at hsound
    exact hsound

/-- The cache can be used: every mark has a live request, every listener will be woken or was, nothing is
    marked between the calls, and no `expect` failed. -/
structure Usable (solver : Solver N S) : Prop where
  live : ∀ name, (solver.cache.packageNameToCandidatesInFlight name).isSome → 0 < solver.requests name
  woken : ∀ f ∈ solver.live, ∀ event name, f.Listens event name →
    event ∈ solver.cache.notified ∨ 0 < solver.requests name
  idle : solver.call = none → ∀ name, solver.cache.packageNameToCandidatesInFlight name = none
  sane : ∀ f ∈ solver.live, ¬ f.Panics

omit [DecidableEq S] in
/-- Without orphans the cache is usable. -/
theorem usable_of_sound (hs : Sound ∅ solver.cache solver.live) : Usable solver := by
  have hlive : ∀ name, (solver.cache.packageNameToCandidatesInFlight name).isSome →
      0 < solver.requests name := by
    intro name hmark
    have hone := hs.marks.live name (Set.notMem_empty name)
    rw [if_pos hmark] at hone
    show 0 < (solver.live.map (Fut.requests name)).sum
    omega
  refine ⟨hlive, ?_, ?_, hs.sane⟩
  · intro f hf event name hl
    rcases hs.marks.listening event name ⟨f, hf, hl⟩ with hdone | hflight
    · exact .inl hdone.1
    · exact .inr (hlive name (Option.isSome_of_eq_some hflight))
  · intro hcall name
    by_contra hmark
    have hpos := hlive name (Option.isSome_iff_ne_none.mpr hmark)
    unfold requests Solver.live at hpos
    rw [hcall] at hpos
    exact Nat.lt_irrefl 0 hpos

/-- **When a run leaves the cache usable.** As long as no step drops a live request, every state is; and
    between the calls the cache is usable exactly if no step so far dropped one. -/
theorem run_usable {choices : List (Choice N S)}
    (hrun : run P sorting rootDependencies {} choices = some solver) :
    (dropped P sorting rootDependencies {} choices = ∅ → Usable solver) ∧
      (solver.call = none → (Usable solver ↔ dropped P sorting rootDependencies {} choices = ∅)) := by
  have hstart : Sound ∅ ({} : Solver N S).cache ({} : Solver N S).live :=
    ⟨Marks.congr Marks.empty (fun _ => rfl) (by rintro event name ⟨f, hf, -⟩; cases hf),
      fun f hf => by cases hf⟩
  have hs := run_sound hstart hrun
  rw [Set.empty_union] at hs
  have husable : dropped P sorting rootDependencies {} choices = ∅ → Usable solver := by
    intro hnone
    rw [hnone] at hs
    exact usable_of_sound hs
  refine ⟨husable, fun hcall => ⟨fun hu => ?_, husable⟩⟩
  rw [Set.eq_empty_iff_forall_notMem]
  intro name hmem
  have horphan := (hs.marks.orphan name hmem).2
  rw [hu.idle hcall name] at horphan
  cases horphan

/-! ## Two packages -/

/-- Two packages without dependencies; version set `i` is for package `i`. -/
def pairSource : DependencyProvider Nat Nat where
  versionSetName := id
  solvableName := id
  versionSetsInUnion := fun _ => []
  resolveCondition := fun _ => .requirement 0
  filterCandidates := fun l _ inverse => if inverse then [] else l
  getCandidates := fun name => some { candidates := [name] }
  sortCandidates := id
  getDependencies := fun _ => .known {}

/-- What the handler queues for the root, which requires both packages. -/
def pairRequests : List (Request Nat Nat) :=
  [.package 0, .package 1, .requirementCandidates (.single 0), .requirementCandidates (.single 1)]

/-- The root is encoded, and the request for the first package waits for the provider. -/
def pairStart : List (Choice Nat Nat) :=
  [.encode [.solvable .root], .queue, .pollQueued [] false, .settle, .result pairRequests,
    .queue, .pollQueued [] false, .settle]

/-- `should_cancel_with_value` returns a value from then on: the other futures fail at once, and handling
    the first failure ends the call. -/
def pairCancelled : List (Choice Nat Nat) :=
  pairStart ++
    [.queue, .pollQueued [] true, .settle,
      .queue, .pollQueued [] true, .pollQueued [0] true, .pollQueued [0] true, .pollQueued [0] true,
      .pollQueued [] true, .pollQueued [] true, .settle,
      .queue, .pollQueued [] true, .pollQueued [0] true, .pollQueued [0] true, .pollQueued [0] true,
      .pollQueued [] true, .pollQueued [] true, .settle,
      .result []]

/-- The call is over and the first package is still marked, so a later request for it waits for ever. -/
theorem pairSource_counterexample : ∃ solver,
    run pairSource (fun _ => .ret (.all [])) (.known {}) {} pairCancelled = some solver ∧
      solver.call.isNone = true ∧ ¬ Usable solver := by
  have hrun : ((run pairSource (fun _ => .ret (.all [])) (.known {}) {} pairCancelled).map fun solver =>
      (solver.call.isNone, solver.cache.packageNameToCandidatesInFlight 0)) = some (true, some 0) := by
    decide
  obtain ⟨solver, hsolver, heq⟩ := Option.map_eq_some_iff.mp hrun
  obtain ⟨hcall, hmark⟩ := Prod.mk.inj heq
  refine ⟨solver, hsolver, hcall, fun hu => ?_⟩
  rw [hu.idle (Option.isNone_iff_eq_none.mp hcall) 0] at hmark
  cases hmark

/-- The provider answers the request and nothing is cancelled. -/
def pairAnswered : List (Choice Nat Nat) :=
  [.encode [.package 0], .queue, .pollQueued [] false, .settle, .poll 0 [] false, .poll 0 [] false,
    .next 0 [], .finish]

theorem pairAnswered_usable : ∃ solver,
    run pairSource (fun _ => .ret (.all [])) (.known {}) {} pairAnswered = some solver ∧
      solver.call.isNone = true ∧ Usable solver := by
  have hrun : ((run pairSource (fun _ => .ret (.all [])) (.known {}) {} pairAnswered).map fun solver =>
      solver.call.isNone) = some true := by decide
  obtain ⟨solver, hsolver, hcall⟩ := Option.map_eq_some_iff.mp hrun
  refine ⟨solver, hsolver, hcall, (run_usable hsolver).1 ?_⟩
  show (∅ ∪ (∅ ∪ (∅ ∪ (∅ ∪ (∅ ∪ (∅ ∪ (∅ ∪ (∅ ∪ ∅))))))) : Set Nat) = ∅
  simp only [Set.union_empty]

end Solver

end Async

end Resolvo
