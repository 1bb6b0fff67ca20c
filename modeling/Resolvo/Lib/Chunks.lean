import Mathlib

/-!
# `Lib.Chunks` — grouping neighbours by a key

`chunkBy` cuts a list into maximal runs of neighbours with the same key. Where equal keys are neighbours
(`Contiguous`), the runs are the fibres of the key: one for each key, with every element that has it.
-/

namespace Chunks

variable {α K : Type} {key : α → K} {l : List α}

/-- Cut a list into runs of neighbours with the same key. -/
def chunkBy [DecidableEq K] (key : α → K) : List α → List (List α)
  | [] => []
  | a :: l =>
      match chunkBy key l with
      | (b :: c) :: rest => if key a = key b then (a :: b :: c) :: rest else [a] :: (b :: c) :: rest
      | rest => [a] :: rest

/-- Between two elements with the same key stand only elements with that key. -/
def Contiguous (key : α → K) (l : List α) : Prop :=
  ∀ front a middle b back, l = front ++ a :: (middle ++ b :: back) → key a = key b →
    ∀ c ∈ middle, key c = key a

theorem Contiguous.tail {a : α} (h : Contiguous key (a :: l)) : Contiguous key l := by
  intro front b middle c back hl
  exact h (a :: front) b middle c back (by rw [hl]; rfl)

/-- A key that comes back after the first element is the key of the second one. -/
theorem Contiguous.head {a b : α} (h : Contiguous key (a :: b :: l)) {c : α} (hc : c ∈ b :: l)
    (hkey : key c = key a) : key b = key a := by
  rcases List.mem_cons.mp hc with rfl | hc
  · exact hkey
  · obtain ⟨middle, back, rfl⟩ := List.append_of_mem hc
    exact h [] a (b :: middle) c back rfl hkey.symm b List.mem_cons_self

theorem Contiguous.reverse (h : Contiguous key l) : Contiguous key l.reverse := by
  intro front a middle b back hl hkey c hc
  have hl' : l = back.reverse ++ b :: (middle.reverse ++ a :: front.reverse) := by
    rw [← List.reverse_reverse l, hl]
    simp
  rw [hkey]
  exact h _ _ _ _ _ hl' hkey.symm c (List.mem_reverse.mpr hc)

variable [DecidableEq K]

/-- The first run starts with the first element. -/
theorem chunkBy_cons (key : α → K) (a : α) (l : List α) :
    ∃ c rest, chunkBy key (a :: l) = (a :: c) :: rest := by
  unfold chunkBy
  split
  · split
    · exact ⟨_, _, rfl⟩
    · exact ⟨_, _, rfl⟩
  · exact ⟨_, _, rfl⟩

/-- **Runs are fibres** where equal keys are neighbours. -/
theorem Contiguous.chunkBy_eq (h : Contiguous key l) :
    ∃ ks : List K, ks.Nodup ∧ (∀ k, k ∈ ks ↔ ∃ a ∈ l, key a = k) ∧
      chunkBy key l = ks.map fun k => l.filter fun a => key a = k := by
  induction l with
  | nil => exact ⟨[], List.nodup_nil, fun k => by simp, rfl⟩
  | cons a l ih =>
    cases l with
    | nil => exact ⟨[key a], by simp, fun k => by simp [eq_comm], by simp [chunkBy]⟩
    | cons b l =>
      obtain ⟨ks, hnodup, hmem, heq⟩ := ih h.tail
      obtain ⟨c, rest, hchunks⟩ := chunkBy_cons key b l
      cases ks with
      | nil =>
        rw [hchunks] at heq
        cases heq
      | cons k ks =>
        rw [hchunks, List.map_cons, List.cons.injEq] at heq
        obtain ⟨hfirst, hrest⟩ := heq
        have hkb : key b = k := by
          have hb : b ∈ (b :: l).filter fun a => key a = k := by
            rw [← hfirst]
            exact List.mem_cons_self
          simpa using (List.mem_filter.mp hb).2
        have hskip : ∀ k', key a ≠ k' → (a :: b :: l).filter (fun x => decide (key x = k'))
            = (b :: l).filter fun x => decide (key x = k') := by
          intro k' hne
          exact List.filter_cons_of_neg (by simpa using hne)
        have hstep : chunkBy key (a :: b :: l)
            = if key a = key b then (a :: b :: c) :: rest else [a] :: (b :: c) :: rest := by
          rw [chunkBy, hchunks]
        by_cases hab : key a = key b
        · refine ⟨k :: ks, hnodup, ?_, ?_⟩
          · intro k'
            rw [hmem]
            constructor
            · rintro ⟨x, hx, hk⟩
              exact ⟨x, List.mem_cons_of_mem _ hx, hk⟩
            · rintro ⟨x, hx, hk⟩
              rcases List.mem_cons.mp hx with rfl | hx
              · exact ⟨b, List.mem_cons_self, hab ▸ hk⟩
              · exact ⟨x, hx, hk⟩
          · rw [hstep, if_pos hab, List.map_cons, List.cons.injEq]
            refine ⟨?_, ?_⟩
            · rw [List.filter_cons_of_pos (by simp [hab, hkb]), ← hfirst]
            · rw [hrest]
              refine List.map_congr_left fun k' hk' => ?_
              have hne : key a ≠ k' := by
                rintro rfl
                rw [hab, hkb] at hk'
                exact (List.nodup_cons.mp hnodup).1 hk'
              exact (hskip k' hne).symm
        · have hfresh : ∀ x ∈ b :: l, key x ≠ key a := by
            intro x hx hkey
            exact hab (h.head hx hkey).symm
          refine ⟨key a :: k :: ks, ?_, ?_, ?_⟩
          · refine List.nodup_cons.mpr ⟨?_, hnodup⟩
            intro hk
            obtain ⟨x, hx, hkey⟩ := (hmem _).mp hk
            exact hfresh x hx hkey
          · intro k'
            rw [List.mem_cons, hmem]
            simp only [List.mem_cons (a := _) (b := a), exists_eq_or_imp]
            constructor
            · rintro (rfl | hk)
              · exact .inl rfl
              · exact .inr hk
            · rintro (rfl | hk)
              · exact .inl rfl
              · exact .inr hk
          · rw [hstep, if_neg hab, List.map_cons, List.cons.injEq]
            refine ⟨?_, ?_⟩
            · have hnone : (b :: l).filter (fun x => decide (key x = key a)) = [] := by
                rw [List.filter_eq_nil_iff]
                intro x hx
                simpa using hfresh x hx
              rw [List.filter_cons_of_pos (by simp), hnone]
            · rw [hfirst, hrest]
              show (k :: ks).map (fun k => (b :: l).filter fun x => decide (key x = k)) = _
              refine List.map_congr_left fun k' hk' => ?_
              have hne : key a ≠ k' := by
                rintro rfl
                obtain ⟨x, hx, hkey⟩ := (hmem _).mp hk'
                exact hfresh x hx hkey
              exact (hskip k' hne).symm

/-- Every run has an element with the property iff every key that occurs has one. -/
theorem Contiguous.forall_chunk_exists (h : Contiguous key l) (P : α → Prop) :
    (∀ c ∈ chunkBy key l, ∃ a ∈ c, P a) ↔ ∀ a ∈ l, ∃ b ∈ l, key b = key a ∧ P b := by
  obtain ⟨ks, -, hmem, heq⟩ := h.chunkBy_eq
  rw [heq]
  simp only [List.forall_mem_map, List.mem_filter, decide_eq_true_eq]
  constructor
  · intro hall a ha
    obtain ⟨b, ⟨hb, hkey⟩, hp⟩ := hall (key a) ((hmem _).mpr ⟨a, ha, rfl⟩)
    exact ⟨b, hb, hkey, hp⟩
  · intro hall k hk
    obtain ⟨a, ha, rfl⟩ := (hmem k).mp hk
    obtain ⟨b, hb, hkey, hp⟩ := hall a ha
    exact ⟨b, ⟨hb, hkey⟩, hp⟩

/-- Some run has the property throughout iff some key has it throughout. -/
theorem Contiguous.exists_chunk_forall (h : Contiguous key l) (P : α → Prop) :
    (∃ c ∈ chunkBy key l, ∀ a ∈ c, P a) ↔ ∃ a ∈ l, ∀ b ∈ l, key b = key a → P b := by
  have hnot := not_congr (h.forall_chunk_exists fun a => ¬P a)
  push Not at hnot
  exact hnot

end Chunks
