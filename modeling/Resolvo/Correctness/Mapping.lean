import Resolvo.Model.Mapping

/-!
# `Correctness.Mapping` — chunked storage as a finite map

What `get` answers after each operation, and that the number of values and the highest index agree with
the slots that are filled. After any sequence of operations the mapping represents the finite map of the
values that were stored last, up to iteration: that ends at the number of values, so it is complete exactly
where the ids have no gap.
-/

namespace Resolvo

namespace Mapping

variable {K V : Type} [DenseIndex K]

/-! ## Slots -/

@[simp] theorem emptyChunk_get (i : Fin valuesPerChunk) : (emptyChunk : Chunk V).get i = none := by
  simp [emptyChunk, Vector.get_eq_getElem]

theorem slot_of_le {chunks : List (Chunk V)} {idx : Nat}
    (h : chunks.length ≤ (chunkAndOffset idx).1) : slot chunks idx = none := by
  unfold slot
  rw [List.getElem?_eq_none h]
  rfl

theorem emptyChunk_slot (n i : Nat) : slot (List.replicate n (emptyChunk : Chunk V)) i = none := by
  unfold slot
  rw [List.getElem?_replicate]
  split <;> simp

/-- Allocating chunks leaves the content of every slot as it was. -/
@[simp] theorem slot_resize (chunks : List (Chunk V)) (idx i : Nat) :
    slot (resize chunks idx) i = slot chunks i := by
  unfold resize
  split
  · rename_i hle
    by_cases hi : (chunkAndOffset i).1 < chunks.length
    · unfold slot
      rw [List.getElem?_append_left hi]
    · rw [slot_of_le (Nat.le_of_not_lt hi)]
      unfold slot
      rw [List.getElem?_append_right (Nat.le_of_not_lt hi), List.getElem?_replicate]
      split <;> simp
  · rfl

theorem lt_length_resize (chunks : List (Chunk V)) (idx : Nat) :
    (chunkAndOffset idx).1 < (resize chunks idx).length := by
  unfold resize
  split
  · simp only [List.length_append, List.length_replicate]
    omega
  · omega

theorem chunkAndOffset_inj {i j : Nat} (hchunk : (chunkAndOffset i).1 = (chunkAndOffset j).1)
    (hoffset : (chunkAndOffset i).2 = (chunkAndOffset j).2) : i = j := by
  have hi := Nat.div_add_mod i valuesPerChunk
  have hj := Nat.div_add_mod j valuesPerChunk
  unfold chunkAndOffset at hchunk hoffset
  simp only at hchunk hoffset
  rw [hchunk, hoffset] at hi
  omega

/-- Overwriting a slot that exists changes that slot alone. -/
theorem slot_store {chunks : List (Chunk V)} {idx : Nat}
    (h : (chunkAndOffset idx).1 < chunks.length) (content : Option V) (i : Nat) :
    slot (store chunks idx content) i = if i = idx then content else slot chunks i := by
  unfold slot store
  rw [List.getElem?_modify]
  by_cases hchunk : (chunkAndOffset idx).1 = (chunkAndOffset i).1
  · simp only [if_pos hchunk]
    rw [← hchunk, List.getElem?_eq_getElem h]
    by_cases hoffset : (chunkAndOffset idx).2 = (chunkAndOffset i).2
    · have hi : i = idx := (chunkAndOffset_inj hchunk hoffset).symm
      subst hi
      simp [Vector.get_eq_getElem]
    · have hi : i ≠ idx := by
        intro heq
        exact hoffset (by rw [heq])
      simp [Vector.get_eq_getElem, hi, Vector.getElem_set_ne _ _ hoffset]
  · have hi : i ≠ idx := by
      intro heq
      exact hchunk (by rw [heq])
    simp [hchunk, hi]

/-! ## Lookups after an operation -/

theorem get_withCapacity (n : Nat) (k : K) : (withCapacity n : Mapping K V).get k = none :=
  emptyChunk_slot _ _

@[simp] theorem get_new (k : K) : (new : Mapping K V).get k = none := get_withCapacity 1 k

@[simp] theorem insert_fst (m : Mapping K V) (k : K) (v : V) : (m.insert k v).1 = m.get k := by
  unfold insert get
  simp

theorem get_insert [DecidableEq K] (m : Mapping K V) (k : K) (v : V) (k' : K) :
    (m.insert k v).2.get k' = if k' = k then some v else m.get k' := by
  unfold insert get
  simp only [slot_store (lt_length_resize _ _), slot_resize, DenseIndex.toIndex_inj]

theorem get_unset [DecidableEq K] (m : Mapping K V) (k k' : K) :
    (m.unset k).2.get k' = if k' = k then none else m.get k' := by
  unfold unset get
  by_cases hle : m.chunks.length ≤ (chunkAndOffset (DenseIndex.toIndex k)).1
  · simp only [hle, if_true]
    by_cases heq : k' = k
    · rw [if_pos heq, heq, slot_of_le hle]
    · rw [if_neg heq]
  · simp only [hle, if_false, slot_store (Nat.lt_of_not_le hle), DenseIndex.toIndex_inj]

theorem get_modify [DecidableEq K] {m m' : Mapping K V} {k : K} {f : V → V}
    (h : m.modify k f = some m') (k' : K) :
    m'.get k' = if k' = k then (m.get k).map f else m.get k' := by
  unfold modify at h
  rw [Option.map_eq_some_iff] at h
  obtain ⟨v, hv, rfl⟩ := h
  have hlt : (chunkAndOffset (DenseIndex.toIndex k)).1 < m.chunks.length := by
    by_contra hle
    have hnone : m.get k = none := slot_of_le (Nat.le_of_not_lt hle)
    rw [hnone] at hv
    cases hv
  rw [hv]
  unfold get
  simp only [slot_store hlt, DenseIndex.toIndex_inj, Option.map_some]

/-! ## Bookkeeping -/

/-- The number of values and the highest index agree with the slots. -/
structure WF (m : Mapping K V) : Prop where
  len : {i | slot m.chunks i ≠ none}.ncard = m.len
  finite : {i | slot m.chunks i ≠ none}.Finite
  max : ∀ i, slot m.chunks i ≠ none → i ≤ m.max

omit [DenseIndex K] in
theorem withCapacity_wf (n : Nat) : (withCapacity n : Mapping K V).WF := by
  have hempty : ∀ i, slot (withCapacity n : Mapping K V).chunks i = none := emptyChunk_slot _
  have hset : {i | slot (withCapacity n : Mapping K V).chunks i ≠ none} = ∅ := by
    ext i
    simp [hempty i]
  refine ⟨?_, ?_, ?_⟩
  · rw [hset, Set.ncard_empty]
    rfl
  · rw [hset]
    exact Set.finite_empty
  · intro i hi
    exact absurd (hempty i) hi

omit [DenseIndex K] in
theorem new_wf : (new : Mapping K V).WF := withCapacity_wf 1

/-- Filling a slot. -/
theorem filled_insert (m : Mapping K V) (k : K) (v : V) : {i | slot (m.insert k v).2.chunks i ≠ none}
    = Insert.insert (DenseIndex.toIndex k) {i | slot m.chunks i ≠ none} := by
  ext i
  unfold Mapping.insert
  simp only [Set.mem_ofPred_eq, Set.mem_insert_iff, slot_store (lt_length_resize _ _), slot_resize]
  by_cases hi : i = DenseIndex.toIndex k
  · simp [hi]
  · simp [hi]

theorem WF.insert {m : Mapping K V} (h : m.WF) (k : K) (v : V) : (m.insert k v).2.WF := by
  have hset := filled_insert m k v
  refine ⟨?_, ?_, ?_⟩
  · rw [hset]
    unfold Mapping.insert
    simp only [slot_resize]
    by_cases hslot : slot m.chunks (DenseIndex.toIndex k) = none
    · rw [Set.ncard_insert_of_notMem (by simpa using hslot) h.finite, h.len, hslot]
      rfl
    · rw [Set.insert_eq_of_mem (by simpa using hslot), h.len]
      simp [hslot]
  · rw [hset]
    exact h.finite.insert _
  · intro i hi
    have hmem : i ∈ Insert.insert (DenseIndex.toIndex k) {i | slot m.chunks i ≠ none} := by
      rw [← hset]
      exact hi
    unfold Mapping.insert
    rcases hmem with rfl | hmem
    · exact Nat.le_max_right _ _
    · exact Nat.le_trans (h.max i hmem) (Nat.le_max_left _ _)

/-- Emptying a slot. -/
theorem filled_unset (m : Mapping K V) (k : K) :
    {i | slot (m.unset k).2.chunks i ≠ none} = {i | slot m.chunks i ≠ none} \ {DenseIndex.toIndex k} := by
  ext i
  unfold Mapping.unset
  simp only [Set.mem_ofPred_eq, Set.mem_sdiff, Set.mem_singleton_iff]
  split
  · next hle =>
      constructor
      · intro hi
        exact ⟨hi, fun heq => hi (heq ▸ slot_of_le hle)⟩
      · exact And.left
  · next hlt =>
      dsimp only
      rw [slot_store (Nat.lt_of_not_le hlt)]
      by_cases hi : i = DenseIndex.toIndex k
      · simp [hi]
      · simp [hi]

theorem WF.unset {m : Mapping K V} (h : m.WF) (k : K) : (m.unset k).2.WF := by
  have hset := filled_unset m k
  refine ⟨?_, ?_, ?_⟩
  · rw [hset]
    unfold Mapping.unset
    dsimp only
    split
    · next hle =>
        have hmem : DenseIndex.toIndex k ∉ {i | slot m.chunks i ≠ none} := fun h => h (slot_of_le hle)
        rw [Set.sdiff_singleton_eq_self hmem]
        exact h.len
    · dsimp only
      cases hslot : slot m.chunks (DenseIndex.toIndex k) with
      | none =>
          have hmem : DenseIndex.toIndex k ∉ {i | slot m.chunks i ≠ none} := fun h => h hslot
          rw [Set.sdiff_singleton_eq_self hmem]
          exact h.len
      | some v =>
          have hmem : DenseIndex.toIndex k ∈ {i | slot m.chunks i ≠ none} := by
            show slot m.chunks (DenseIndex.toIndex k) ≠ none
            rw [hslot]
            exact Option.some_ne_none v
          rw [Set.ncard_sdiff_singleton_of_mem hmem, h.len]
          rfl
  · rw [hset]
    exact h.finite.subset Set.sdiff_subset
  · intro i hi
    have hmem : i ∈ {i | slot m.chunks i ≠ none} \ {DenseIndex.toIndex k} := hset ▸ hi
    have hmax : (m.unset k).2.max = m.max := by
      unfold Mapping.unset
      dsimp only
      split <;> rfl
    rw [hmax]
    exact h.max i hmem.1

/-- Only an empty slot is filled. -/
theorem getOrInsertWith_eq (m : Mapping K V) (k : K) (v : V) :
    (m.getOrInsertWith k v).2 = if m.get k = none then (m.insert k v).2
      else { m with chunks := resize m.chunks (DenseIndex.toIndex k) } := by
  unfold getOrInsertWith Mapping.insert get
  dsimp only
  rw [slot_resize]
  cases slot m.chunks (DenseIndex.toIndex k) with
  | none => simp
  | some v' => simp

theorem WF.le_max {m : Mapping K V} (h : m.WF) {k : K} {v : V} (hk : m.get k = some v) :
    DenseIndex.toIndex k ≤ m.max := by
  refine h.max _ ?_
  have hslot : slot m.chunks (DenseIndex.toIndex k) = some v := hk
  rw [hslot]
  simp

/-- Every slot that is filled belongs to an id. -/
def Indexed (m : Mapping K V) : Prop :=
  ∀ i, slot m.chunks i ≠ none → DenseIndex.toIndex (DenseIndex.fromIndex i : K) = i

/-- An iteration yields the pairs whose index is below the number of values. -/
theorem mem_iter {m : Mapping K V} (h : m.Indexed) (k : K) (v : V) :
    (k, v) ∈ m.iter ↔ DenseIndex.toIndex k < m.len ∧ m.get k = some v := by
  unfold iter get
  rw [List.mem_filterMap]
  simp only [List.mem_range, Option.map_eq_some_iff, Prod.mk.injEq]
  constructor
  · rintro ⟨i, hi, v', hslot, rfl, rfl⟩
    rw [h i (by rw [hslot]; exact Option.some_ne_none v')]
    exact ⟨hi, hslot⟩
  · rintro ⟨hlt, hslot⟩
    exact ⟨_, hlt, v, hslot, DenseIndex.fromIndex_toIndex k, rfl⟩

/-! ## Serialization -/

/-- The chunks one after the other hold the slots in order. -/
theorem flatMap_toList_getElem? (chunks : List (Chunk V)) (i : Nat) :
    ((chunks.flatMap Vector.toList)[i]?).join = slot chunks i := by
  induction chunks generalizing i with
  | nil => rfl
  | cons c chunks ih =>
      rw [List.flatMap_cons]
      have hlength : c.toList.length = valuesPerChunk := Vector.length_toList
      rcases Nat.lt_or_ge i valuesPerChunk with hi | hi
      · have hoffset : i % valuesPerChunk = i := Nat.mod_eq_of_lt hi
        rw [List.getElem?_append_left (by omega)]
        unfold slot chunkAndOffset
        simp only [Nat.div_eq_of_lt hi, List.getElem?_cons_zero, Option.bind_some, Vector.get_eq_getElem, hoffset]
        rw [List.getElem?_eq_getElem (by omega), Vector.getElem_toList]
        rfl
      · obtain ⟨j, rfl⟩ := Nat.exists_eq_add_of_le' hi
        rw [List.getElem?_append_right (by omega), hlength, Nat.add_sub_cancel, ih]
        have hpos : 0 < valuesPerChunk := by decide
        unfold slot chunkAndOffset
        simp only [Nat.add_div_right j hpos, Nat.add_mod_right, List.getElem?_cons_succ]

omit [DenseIndex K] in
theorem content_getElem? {m : Mapping K V} (h : m.WF) (i : Nat) :
    (m.content[i]?).join = slot m.chunks i := by
  unfold content
  rw [List.getElem?_take]
  split
  · exact flatMap_toList_getElem? m.chunks i
  · next hi =>
      by_contra hne
      have hle := h.max i fun hnone => hne (by rw [hnone]; rfl)
      omega

/-- Inserting the values of a list, the first of them at index `n`. -/
theorem get_insertAll (values : List (Option V)) (n : Nat) (m : Mapping K V)
    (h : ∀ j v, values[j]? = some (some v) → DenseIndex.toIndex (DenseIndex.fromIndex (n + j) : K) = n + j)
    (k : K) :
    ((values.zipIdx n).foldl
        (fun (m : Mapping K V) (value, i) =>
          match value with
          | some value => (m.insert (DenseIndex.fromIndex i) value).2
          | none => m) m).get k =
      if n ≤ DenseIndex.toIndex k then ((values[DenseIndex.toIndex k - n]?).join.or (m.get k)) else m.get k := by
  classical
  induction values generalizing n m with
  | nil => simp
  | cons value values ih =>
      have htail : ∀ j v, values[j]? = some (some v) →
          DenseIndex.toIndex (DenseIndex.fromIndex (n + 1 + j) : K) = n + 1 + j := by
        intro j v hv
        have := h (j + 1) v hv
        rwa [← Nat.add_assoc, Nat.add_right_comm] at this
      -- the first value reaches the id with index `n` alone
      have hhead : (match value with
          | some value => (m.insert (DenseIndex.fromIndex n) value).2
          | none => m).get k = if DenseIndex.toIndex k = n then value.or (m.get k) else m.get k := by
        cases value with
        | none => simp
        | some v =>
            have hn : DenseIndex.toIndex (DenseIndex.fromIndex n : K) = n := by simpa using h 0 v rfl
            have hk : k = DenseIndex.fromIndex n ↔ DenseIndex.toIndex k = n := by
              rw [← DenseIndex.toIndex_inj, hn]
            simp only [get_insert, hk, Option.some_or]
      rw [List.zipIdx_cons, List.foldl_cons, ih (n + 1) _ htail, hhead]
      rcases Nat.lt_trichotomy (DenseIndex.toIndex k) n with hk | hk | hk
      · rw [if_neg (by omega), if_neg (by omega), if_neg (by omega)]
      · rw [if_neg (by omega), if_pos hk, if_pos hk.ge, hk, Nat.sub_self]
        rfl
      · rw [if_pos (by omega), if_neg (by omega), if_pos (by omega)]
        obtain ⟨j, hj⟩ : ∃ j, DenseIndex.toIndex k = n + 1 + j := Nat.exists_eq_add_of_le hk
        have hj₁ : DenseIndex.toIndex k - (n + 1) = j := by omega
        have hj₀ : DenseIndex.toIndex k - n = j + 1 := by omega
        rw [hj₁, hj₀, List.getElem?_cons_succ]

/-- The content has every value. -/
theorem get_ofContent_content {m : Mapping K V} (h : m.WF) (hi : m.Indexed) (k : K) :
    (ofContent m.content : Mapping K V).get k = m.get k := by
  have hslot : ∀ j v, m.content[j]? = some (some v) →
      DenseIndex.toIndex (DenseIndex.fromIndex (0 + j) : K) = 0 + j := by
    intro j v hj
    have hfilled := content_getElem? h j
    rw [hj] at hfilled
    rw [Nat.zero_add]
    apply hi
    rw [← hfilled]
    exact Option.some_ne_none v
  refine (get_insertAll m.content 0 (withCapacity m.content.length) hslot k).trans ?_
  rw [if_pos (Nat.zero_le _), Nat.sub_zero, content_getElem? h, get_withCapacity, Option.or_none]
  rfl

/-! ## Iteration -/

/-- The filled slots stay those of ids. -/
theorem Indexed.insert {m : Mapping K V} (h : m.Indexed) (k : K) (v : V) : (m.insert k v).2.Indexed := by
  intro i hi
  have hmem : i ∈ Insert.insert (DenseIndex.toIndex k) {i | slot m.chunks i ≠ none} :=
    filled_insert m k v ▸ hi
  rcases hmem with rfl | hmem
  · rw [DenseIndex.fromIndex_toIndex]
  · exact h i hmem

theorem Indexed.unset {m : Mapping K V} (h : m.Indexed) (k : K) : (m.unset k).2.Indexed := by
  intro i hi
  have hmem : i ∈ {i | slot m.chunks i ≠ none} \ {DenseIndex.toIndex k} := filled_unset m k ▸ hi
  exact h i hmem.1

end Mapping

namespace MappingIter

variable {K V : Type} [DenseIndex K]

/-- What an iterator yields until it ends. -/
inductive Yields : MappingIter K V → List (K × V) → Prop where
  | done {it : MappingIter K V} (h : it.next = none) : Yields it []
  | more {it it' : MappingIter K V} {pair : K × V} {pairs : List (K × V)}
      (h : it.next = some (pair, it')) (hrest : Yields it' pairs) : Yields it (pair :: pairs)

theorem Yields.unique {it : MappingIter K V} {l l' : List (K × V)} (h : Yields it l) (h' : Yields it l') :
    l = l' := by
  induction h generalizing l' with
  | done hdone =>
      cases h' with
      | done _ => rfl
      | more hnext _ => rw [hdone] at hnext; cases hnext
  | more hmore _ ih =>
      cases h' with
      | done hdone => rw [hdone] at hmore; cases hmore
      | more hnext hrest =>
          rw [hmore] at hnext
          obtain ⟨rfl, rfl⟩ := Prod.mk.inj (Option.some.inj hnext)
          rw [ih hrest]

/-- From an offset on, the iterator yields the filled slots below the number of values. -/
theorem yields_from (m : Mapping K V) (n offset : Nat) (hn : m.len - offset = n) :
    Yields ⟨m, offset⟩ ((List.range' offset n).filterMap fun i =>
      (Mapping.slot m.chunks i).map fun value => (DenseIndex.fromIndex i, value)) := by
  induction n generalizing offset with
  | zero =>
      apply Yields.done
      rw [next]
      exact if_neg (by simp only; omega)
  | succ n ih =>
      have hlt : offset < m.len := by omega
      have hrest := ih (offset + 1) (by omega)
      rw [List.range'_succ, List.filterMap_cons]
      cases hslot : Mapping.slot m.chunks offset with
      | some value =>
          apply Yields.more _ hrest
          rw [next]
          simp only [hlt, if_true, hslot]
      | none =>
          -- an empty slot is skipped
          have hskip : next ⟨m, offset⟩ = next ⟨m, offset + 1⟩ := by
            rw [next]
            simp only [hlt, if_true, hslot]
          dsimp only [Option.map_none]
          generalize List.filterMap _ _ = l at hrest ⊢
          cases hrest with
          | done hdone => exact .done (hskip.trans hdone)
          | more hnext hrest => exact .more (hskip.trans hnext) hrest

theorem yields_iter (m : Mapping K V) : Yields ⟨m, 0⟩ m.iter := by
  unfold Mapping.iter
  rw [List.range_eq_range']
  exact yields_from m m.len 0 rfl

end MappingIter

namespace Mapping

variable {K V D : Type} [DenseIndex K]

/-- The ids of an iteration increase. -/
theorem iter_sorted {m : Mapping K V} (h : m.Indexed) :
    m.iter.Pairwise fun a b => DenseIndex.toIndex a.1 < DenseIndex.toIndex b.1 := by
  unfold iter
  rw [List.pairwise_filterMap]
  refine List.pairwise_lt_range.imp fun {i j} hij a ha b hb => ?_
  obtain ⟨v, hv, rfl⟩ := Option.map_eq_some_iff.mp ha
  obtain ⟨w, hw, rfl⟩ := Option.map_eq_some_iff.mp hb
  have hi := h i (by rw [hv]; exact Option.some_ne_none v)
  have hj := h j (by rw [hw]; exact Option.some_ne_none w)
  simp only [hi, hj]
  exact hij

/-! ## Sequences of operations -/

/-- An operation on a mapping. -/
inductive Op (K V : Type) where
  | insert (id : K) (value : V)
  | getOrInsertWith (id : K) (default : V)
  | unset (id : K)

def apply (m : Mapping K V) : Op K V → Mapping K V
  | .insert id value => (m.insert id value).2
  | .getOrInsertWith id default => (m.getOrInsertWith id default).2
  | .unset id => (m.unset id).2

/-- The mapping after a sequence of operations. -/
def applyAll (capacity : Nat) (ops : List (Op K V)) : Mapping K V := ops.foldl apply (withCapacity capacity)

/-- The number of values is that of the ids that have one. -/
theorem len_eq {m : Mapping K V} (hwf : m.WF) (hi : m.Indexed) : {k | m.get k ≠ none}.ncard = m.len := by
  rw [← hwf.len]
  have himage : {i | slot m.chunks i ≠ none} = DenseIndex.toIndex '' {k : K | m.get k ≠ none} := by
    ext i
    constructor
    · intro h
      have hindex := hi i h
      refine ⟨DenseIndex.fromIndex i, ?_, hindex⟩
      show slot m.chunks (DenseIndex.toIndex (DenseIndex.fromIndex i : K)) ≠ none
      rw [hindex]
      exact h
    · rintro ⟨k, hk, rfl⟩
      exact hk
  rw [himage, Set.ncard_image_of_injective _ fun k k' h => DenseIndex.toIndex_inj.mp h]

section Represents

variable [DecidableEq K]

/-- The finite map that an operation turns `f` into. -/
def Op.update (f : K → Option V) : Op K V → K → Option V
  | .insert id value => fun k => if k = id then some value else f k
  | .getOrInsertWith id default => fun k => if k = id then some ((f id).getD default) else f k
  | .unset id => fun k => if k = id then none else f k

/-- The last value that was stored for an id and not unset. -/
def stored (ops : List (Op K V)) : K → Option V := ops.foldl Op.update fun _ => none

/-- **A mapping represents a finite map**: lookups, the number of values, iteration in the order of the ids,
    and a round trip through a format. -/
structure Represents (format : SerdeFormat V D) (m : Mapping K V) (f : K → Option V) : Prop where
  get : ∀ k, m.get k = f k
  len : {k | f k ≠ none}.ncard = m.len
  iter : ∃ pairs, MappingIter.Yields ⟨m, 0⟩ pairs ∧
    (pairs.Pairwise fun a b => DenseIndex.toIndex a.1 < DenseIndex.toIndex b.1) ∧
    ∀ k v, (k, v) ∈ pairs ↔ f k = some v
  serde : ∃ m', deserialize format (m.serialize format) = some m' ∧ ∀ k, m'.get k = f k

/-- What an operation does to the slots, to the bookkeeping and to the lookups. -/
theorem apply_spec {m : Mapping K V} {f : K → Option V} (hwf : m.WF) (hi : m.Indexed)
    (hget : ∀ k, m.get k = f k) (op : Op K V) :
    (m.apply op).WF ∧ (m.apply op).Indexed ∧ ∀ k, (m.apply op).get k = op.update f k := by
  cases op with
  | insert id value =>
      refine ⟨hwf.insert id value, hi.insert id value, fun k => ?_⟩
      show (m.insert id value).2.get k = if k = id then some value else f k
      rw [get_insert, hget]
  | unset id =>
      refine ⟨hwf.unset id, hi.unset id, fun k => ?_⟩
      show (m.unset id).2.get k = if k = id then none else f k
      rw [get_unset, hget]
  | getOrInsertWith id default =>
      show (m.getOrInsertWith id default).2.WF ∧ (m.getOrInsertWith id default).2.Indexed ∧
        ∀ k, (m.getOrInsertWith id default).2.get k = if k = id then some ((f id).getD default) else f k
      rw [getOrInsertWith_eq]
      cases hf : f id with
      | none =>
          rw [if_pos ((hget id).trans hf)]
          refine ⟨hwf.insert id default, hi.insert id default, fun k => ?_⟩
          rw [get_insert, hget]
          rfl
      | some value =>
          -- the slot is filled: only its chunk was looked up
          rw [if_neg (by rw [hget, hf]; exact Option.some_ne_none value)]
          have hslot : ∀ i, slot (resize m.chunks (DenseIndex.toIndex id)) i = slot m.chunks i :=
            slot_resize m.chunks _
          refine ⟨⟨?_, ?_, fun i h => ?_⟩, fun i h => ?_, fun k => ?_⟩
          · simp only [hslot]
            exact hwf.len
          · simp only [hslot]
            exact hwf.finite
          · exact hwf.max i (hslot i ▸ h)
          · exact hi i (hslot i ▸ h)
          · show slot (resize m.chunks (DenseIndex.toIndex id)) (DenseIndex.toIndex k) = _
            rw [hslot]
            refine (hget k).trans ?_
            split
            · next hk => rw [hk, hf]; rfl
            · rfl

theorem applyAll_spec (capacity : Nat) (ops : List (Op K V)) :
    (applyAll capacity ops).WF ∧ (applyAll capacity ops).Indexed ∧
      ∀ k, (applyAll capacity ops).get k = stored ops k := by
  unfold applyAll stored
  induction ops using List.reverseRecOn with
  | nil =>
      refine ⟨withCapacity_wf capacity, fun i hi => ?_, get_withCapacity capacity⟩
      exact absurd (emptyChunk_slot _ i) hi
  | append_singleton ops op ih =>
      rw [List.foldl_concat, List.foldl_concat]
      exact apply_spec ih.1 ih.2.1 ih.2.2 op

/-- **A mapping represents the map of its operations exactly where the ids have no gap**: every id with a value
    has an index below the number of ids with a value. -/
theorem represents_iff {format : SerdeFormat V D} (hformat : ∀ l, format.deserialize (format.serialize l) = some l)
    (capacity : Nat) (ops : List (Op K V)) :
    Represents format (applyAll capacity ops) (stored ops) ↔
      ∀ k, stored ops k ≠ none → DenseIndex.toIndex k < {k | stored ops k ≠ none}.ncard := by
  obtain ⟨hwf, hi, hget⟩ := applyAll_spec capacity ops
  generalize applyAll capacity ops = m at hwf hi hget ⊢
  rw [← (funext hget : m.get = stored ops), len_eq hwf hi]
  constructor
  · intro h k hk
    obtain ⟨v, hv⟩ := Option.ne_none_iff_exists'.mp hk
    obtain ⟨pairs, hyields, -, hpairs⟩ := h.iter
    rw [hyields.unique (MappingIter.yields_iter m)] at hpairs
    exact ((mem_iter hi k v).mp ((hpairs k v).mpr hv)).1
  · intro h
    refine ⟨fun _ => rfl, len_eq hwf hi, ⟨m.iter, MappingIter.yields_iter m, iter_sorted hi, fun k v => ?_⟩,
      ofContent m.content, ?_, get_ofContent_content hwf hi⟩
    · rw [mem_iter hi]
      refine ⟨And.right, fun hv => ⟨h k ?_, hv⟩⟩
      rw [hv]
      exact Option.some_ne_none v
    · unfold deserialize serialize
      rw [hformat]
      rfl

end Represents

/-! ## An example -/

/-- JSON values, as far as a list of optional numbers needs them. -/
inductive Json where
  | null
  | number (n : Nat)
  | array (values : List Json)

def jsonFormat : SerdeFormat Nat Json where
  serialize values := .array (values.map fun
    | none => .null
    | some n => .number n)
  deserialize
    | .array values => values.mapM fun
        | .null => some none
        | .number n => some (some n)
        | .array _ => none
    | _ => none

theorem jsonFormat_reads (l : List (Option Nat)) : jsonFormat.deserialize (jsonFormat.serialize l) = some l := by
  show List.mapM _ (l.map _) = some l
  rw [List.mapM_map]
  refine Eq.trans (congrArg (List.mapM · l) ?_) ((List.mapM_pure (f := id)).trans (congrArg some (List.map_id l)))
  funext value
  cases value <;> rfl

/-- A single value at index 0 leaves no gap. -/
theorem represents_first : Represents jsonFormat (applyAll 1 [Op.insert 0 7]) (stored [Op.insert 0 7]) := by
  refine (represents_iff jsonFormat_reads 1 [Op.insert 0 7]).mpr fun k hk => ?_
  have hstored : ∀ k : Nat, stored [Op.insert 0 7] k = if k = 0 then some 7 else none := fun _ => rfl
  have hset : {k : Nat | stored [Op.insert 0 7] k ≠ none} = {0} := by
    ext k
    simp [hstored]
  rw [hset, Set.ncard_singleton]
  have h0 : k = 0 := by
    by_contra hne
    exact hk ((hstored k).trans (if_neg hne))
  subst h0
  decide

/-- A single value at index 5 is not found by an iteration, which ends after index 0. -/
theorem not_represents_gap :
    ¬ Represents jsonFormat (applyAll 1 [Op.insert 5 7]) (stored [Op.insert 5 7]) := by
  intro h
  obtain ⟨pairs, hyields, -, hpairs⟩ := h.iter
  have hempty : (applyAll 1 [Op.insert 5 7]).iter = ([] : List (Nat × Nat)) := by decide
  rw [hyields.unique (MappingIter.yields_iter _), hempty] at hpairs
  exact absurd ((hpairs 5 7).mpr rfl) List.not_mem_nil

end Mapping

end Resolvo
