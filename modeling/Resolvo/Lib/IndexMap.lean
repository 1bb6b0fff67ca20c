import Mathlib

/-!
# `Lib.IndexMap` — finite maps that remember insertion order

A map is an association list in which a key occurs at most once by construction: `insert` overwrites
in place and appends a new key at the end, which is the order an insertion-ordered hash map iterates
in. Nothing here depends on the program the maps are used for.
-/

/-- A finite map from `K` to `V`, iterated in insertion order. -/
structure IndexMap (K V : Type) where
  /-- The entries, oldest first. -/
  entries : List (K × V) := []

namespace IndexMap

variable {K V : Type} [DecidableEq K]

/-- The first value stored under `k` in an entry list. -/
def lookup : List (K × V) → K → Option V
  | [], _ => none
  | (k', v) :: rest, k => if k' = k then some v else lookup rest k

/-- Overwrite the value under `k`, or append a fresh entry. -/
def upsert : List (K × V) → K → V → List (K × V)
  | [], k, v => [(k, v)]
  | (k', v') :: rest, k, v => if k' = k then (k, v) :: rest else (k', v') :: upsert rest k v

def get? (m : IndexMap K V) (k : K) : Option V := lookup m.entries k

def getD (m : IndexMap K V) (k : K) (d : V) : V := (m.get? k).getD d

def insert (m : IndexMap K V) (k : K) (v : V) : IndexMap K V := ⟨upsert m.entries k v⟩

def keys (m : IndexMap K V) : List K := m.entries.map Prod.fst

def values (m : IndexMap K V) : List V := m.entries.map Prod.snd

def mapValues (m : IndexMap K V) (f : V → V) : IndexMap K V :=
  ⟨m.entries.map fun e => (e.1, f e.2)⟩

/-- Remove `k` by moving the last entry into its place. -/
def swapRemove (m : IndexMap K V) (k : K) : IndexMap K V :=
  match m.entries.findIdx? (fun e => e.1 = k), m.entries.getLast? with
  | some i, some last =>
      if i + 1 = m.entries.length then ⟨m.entries.dropLast⟩ else ⟨(m.entries.set i last).dropLast⟩
  | _, _ => m

theorem lookup_upsert (l : List (K × V)) (k k' : K) (v : V) :
    lookup (upsert l k v) k' = if k = k' then some v else lookup l k' := by
  induction l with
  | nil => simp [upsert, lookup]
  | cons e rest ih =>
      obtain ⟨ek, ev⟩ := e
      by_cases hk : ek = k
      · subst hk
        by_cases hk' : ek = k' <;> simp [upsert, lookup, hk']
      · by_cases hk' : ek = k'
        · subst hk'
          have hne : k ≠ ek := fun h => hk h.symm
          simp [upsert, lookup, hk, hne]
        · simp [upsert, lookup, hk, hk', ih]

@[simp] theorem get?_empty (k : K) : (⟨[]⟩ : IndexMap K V).get? k = none := rfl

theorem get?_insert (m : IndexMap K V) (k k' : K) (v : V) :
    (m.insert k v).get? k' = if k = k' then some v else m.get? k' :=
  lookup_upsert m.entries k k' v

@[simp] theorem get?_insert_self (m : IndexMap K V) (k : K) (v : V) :
    (m.insert k v).get? k = some v := by simp [get?_insert]

theorem get?_insert_ne (m : IndexMap K V) {k k' : K} (v : V) (h : k ≠ k') :
    (m.insert k v).get? k' = m.get? k' := by simp [get?_insert, h]

theorem mem_of_lookup {l : List (K × V)} {k : K} {v : V} (h : lookup l k = some v) :
    (k, v) ∈ l := by
  induction l with
  | nil => simp [lookup] at h
  | cons e rest ih =>
      obtain ⟨ek, ev⟩ := e
      by_cases hk : ek = k
      · simp only [lookup, hk, if_true, Option.some.injEq] at h
        subst hk h
        exact List.mem_cons_self
      · simp only [lookup, hk, if_false] at h
        exact List.mem_cons_of_mem _ (ih h)

theorem getD_insert (m : IndexMap K V) (k k' : K) (v d : V) :
    (m.insert k v).getD k' d = if k = k' then v else m.getD k' d := by
  simp only [getD, get?_insert]
  split <;> rfl

theorem mem_of_get? {m : IndexMap K V} {k : K} {v : V} (h : m.get? k = some v) :
    (k, v) ∈ m.entries := mem_of_lookup h

theorem mem_upsert {l : List (K × V)} {k : K} {v : V} {e : K × V} (h : e ∈ upsert l k v) :
    e = (k, v) ∨ e ∈ l := by
  induction l with
  | nil => exact .inl (by simpa [upsert] using h)
  | cons e' rest ih =>
      obtain ⟨ek, ev⟩ := e'
      by_cases hk : ek = k
      · simp only [upsert, hk, if_true, List.mem_cons] at h
        exact h.imp_right fun hr => List.mem_cons_of_mem _ hr
      · simp only [upsert, hk, if_false, List.mem_cons] at h
        rcases h with rfl | h
        · exact .inr List.mem_cons_self
        · exact (ih h).imp_right fun hr => List.mem_cons_of_mem _ hr

theorem mem_insert {m : IndexMap K V} {k : K} {v : V} {e : K × V}
    (h : e ∈ (m.insert k v).entries) : e = (k, v) ∨ e ∈ m.entries := mem_upsert h

/-- A member of a stored list is a member of an entry. -/
theorem mem_getD_nil {α : Type} {m : IndexMap K (List α)} {k : K} {a : α}
    (h : a ∈ m.getD k []) : ∃ l, (k, l) ∈ m.entries ∧ a ∈ l ∧ m.get? k = some l := by
  cases hk : m.get? k with
  | none => simp [getD, hk] at h
  | some l => exact ⟨l, mem_of_get? hk, by simpa [getD, hk] using h, rfl⟩

/-- Overwriting twice is overwriting once. -/
theorem upsert_upsert (l : List (K × V)) (k : K) (v v' : V) :
    upsert (upsert l k v) k v' = upsert l k v' := by
  induction l with
  | nil => simp [upsert]
  | cons e rest ih =>
      obtain ⟨ek, ev⟩ := e
      by_cases hk : ek = k
      · simp [upsert, hk]
      · simp [upsert, hk, ih]

theorem insert_insert (m : IndexMap K V) (k : K) (v v' : V) :
    (m.insert k v).insert k v' = m.insert k v' := by
  simp only [insert, upsert_upsert]

/-! ## What stays in a map -/

/-- Inserting keeps every entry but the one it overwrites. -/
theorem mem_upsert_or {l : List (K × V)} {k : K} {v : V} {e : K × V} (h : e ∈ l) :
    e ∈ upsert l k v ∨ (e.1 = k ∧ lookup l k = some e.2) := by
  induction l with
  | nil => cases h
  | cons e' rest ih =>
      obtain ⟨ek, ev⟩ := e'
      by_cases hk : ek = k
      · rcases List.mem_cons.mp h with rfl | h
        · exact .inr ⟨hk, by simp [lookup, hk]⟩
        · exact .inl (by simp [upsert, hk, h])
      · rcases List.mem_cons.mp h with rfl | h
        · exact .inl (by simp [upsert, hk])
        · refine (ih h).imp (fun h => ?_) fun h => ⟨h.1, by simp [lookup, hk, h.2]⟩
          simp [upsert, hk, h]

theorem mem_insert_or {m : IndexMap K V} {k : K} {v : V} {e : K × V} (h : e ∈ m.entries) :
    e ∈ (m.insert k v).entries ∨ (e.1 = k ∧ m.get? k = some e.2) := mem_upsert_or h

theorem mem_insert_self (m : IndexMap K V) (k : K) (v : V) : (k, v) ∈ (m.insert k v).entries :=
  mem_of_get? (get?_insert_self m k v)

/-- The entry at the position of a key is the one that is looked up. -/
theorem lookup_of_findIdx? {l : List (K × V)} {k : K} {i : Nat}
    (h : l.findIdx? (fun e => e.1 = k) = some i) :
    ∃ e, l[i]? = some e ∧ e.1 = k ∧ lookup l k = some e.2 := by
  induction l generalizing i with
  | nil => simp at h
  | cons e rest ih =>
      obtain ⟨ek, ev⟩ := e
      by_cases hk : ek = k
      · have hi : i = 0 := by simpa [List.findIdx?_cons, hk] using h.symm
        subst hi
        exact ⟨(ek, ev), rfl, hk, by simp [lookup, hk]⟩
      · simp only [List.findIdx?_cons, hk, decide_false, Bool.false_eq_true, if_false,
          Option.map_eq_some_iff] at h
        obtain ⟨j, hj, rfl⟩ := h
        obtain ⟨e, he, hek, hl⟩ := ih hj
        exact ⟨e, he, hek, by simp [lookup, hk, hl]⟩

/-- Removing a key removes one entry. -/
theorem mem_swapRemove {m : IndexMap K V} {k : K} {e : K × V} (h : e ∈ (m.swapRemove k).entries) :
    e ∈ m.entries := by
  simp only [swapRemove] at h
  split at h
  · next i last hi hlast =>
      split at h
      · exact List.mem_of_mem_dropLast h
      · rcases List.mem_or_eq_of_mem_set (List.mem_of_mem_dropLast h) with h | rfl
        · exact h
        · exact List.mem_of_getLast? hlast
  · exact h

theorem mem_swapRemove_or {m : IndexMap K V} {k : K} {e : K × V} (h : e ∈ m.entries) :
    e ∈ (m.swapRemove k).entries ∨ (e.1 = k ∧ m.get? k = some e.2) := by
  simp only [swapRemove]
  split
  · next i last hi hlast =>
      obtain ⟨ei, hei, hkey, hlookup⟩ := lookup_of_findIdx? hi
      obtain ⟨j, hj, rfl⟩ := List.mem_iff_getElem.mp h
      obtain ⟨hilt, rfl⟩ := List.getElem?_eq_some_iff.mp hei
      have hlast' : m.entries[m.entries.length - 1]? = some last := by
        rw [← hlast, List.getLast?_eq_getElem?]
      by_cases hij : j = i
      · subst hij
        exact .inr ⟨hkey, hlookup⟩
      · refine .inl ?_
        split
        · next hend =>
            refine List.mem_iff_getElem?.mpr ⟨j, ?_⟩
            rw [List.getElem?_dropLast, if_pos (by omega), List.getElem?_eq_getElem hj]
        · next hend =>
            by_cases hjlast : j = m.entries.length - 1
            · -- the last entry moves to the place of the removed one
              refine List.mem_iff_getElem?.mpr ⟨i, ?_⟩
              rw [List.getElem?_dropLast, if_pos (by simp; omega), List.getElem?_set_self hilt,
                ← hlast', ← hjlast, List.getElem?_eq_getElem hj]
            · refine List.mem_iff_getElem?.mpr ⟨j, ?_⟩
              rw [List.getElem?_dropLast, if_pos (by simp; omega), List.getElem?_set_ne (Ne.symm hij),
                List.getElem?_eq_getElem hj]
  · exact .inl h

/-! ## Entries up to their order -/

theorem lookup_eq_none_iff {l : List (K × V)} {k : K} : lookup l k = none ↔ k ∉ l.map Prod.fst := by
  induction l with
  | nil => simp [lookup]
  | cons e rest ih =>
      obtain ⟨ek, ev⟩ := e
      by_cases hk : ek = k
      · simp [lookup, hk]
      · simp [lookup, hk, ih, Ne.symm hk]

/-- Where keys are distinct, looking up is membership. -/
theorem lookup_eq_some_iff {l : List (K × V)} (hnodup : (l.map Prod.fst).Nodup) {k : K} {v : V} :
    lookup l k = some v ↔ (k, v) ∈ l := by
  induction l with
  | nil => simp [lookup]
  | cons e rest ih =>
      obtain ⟨ek, ev⟩ := e
      obtain ⟨hnot, hrest⟩ := List.nodup_cons.mp hnodup
      by_cases hk : ek = k
      · subst hk
        have hmem : (ek, v) ∉ rest := fun h => hnot (List.mem_map.mpr ⟨_, h, rfl⟩)
        simp [lookup, hmem, eq_comm]
      · simp [lookup, hk, ih hrest, Ne.symm hk]

theorem lookup_perm {l l' : List (K × V)} (hnodup : (l.map Prod.fst).Nodup) (h : l.Perm l') (k : K) :
    lookup l k = lookup l' k := by
  have hnodup' := (h.map Prod.fst).nodup_iff.mp hnodup
  refine Option.ext fun v => ?_
  rw [lookup_eq_some_iff hnodup, lookup_eq_some_iff hnodup', h.mem_iff]

theorem upsert_of_lookup_none {l : List (K × V)} {k : K} (h : lookup l k = none) (v : V) :
    upsert l k v = l ++ [(k, v)] := by
  induction l with
  | nil => rfl
  | cons e rest ih =>
      obtain ⟨ek, ev⟩ := e
      by_cases hk : ek = k
      · simp [lookup, hk] at h
      · simp only [lookup, hk, if_false] at h
        simp [upsert, hk, ih h]

/-- Inserting under a key that is there exchanges one entry. -/
theorem upsert_perm {l : List (K × V)} {k : K} {v : V} (h : lookup l k = some v) :
    ∃ rest, l.Perm ((k, v) :: rest) ∧ ∀ v', (upsert l k v').Perm ((k, v') :: rest) := by
  induction l with
  | nil => cases h
  | cons e rest ih =>
      obtain ⟨ek, ev⟩ := e
      by_cases hk : ek = k
      · subst hk
        simp only [lookup, if_true, Option.some.injEq] at h
        subst h
        exact ⟨rest, .refl _, fun v' => by simp [upsert]⟩
      · simp only [lookup, hk, if_false] at h
        obtain ⟨rest', h₁, h₂⟩ := ih h
        refine ⟨(ek, ev) :: rest', (h₁.cons _).trans (.swap _ _ _), fun v' => ?_⟩
        simp only [upsert, hk, if_false]
        exact ((h₂ v').cons _).trans (.swap _ _ _)

theorem keys_insert_nodup {m : IndexMap K V} (h : m.keys.Nodup) (k : K) (v : V) : (m.insert k v).keys.Nodup := by
  cases hk : m.get? k with
  | none =>
      show ((upsert m.entries k v).map Prod.fst).Nodup
      rw [upsert_of_lookup_none hk, List.map_append, List.nodup_append]
      refine ⟨h, List.nodup_singleton k, fun a ha b hb => ?_⟩
      obtain rfl := List.mem_singleton.mp hb
      rintro rfl
      exact lookup_eq_none_iff.mp hk ha
  | some v' =>
      obtain ⟨rest, h₁, h₂⟩ := upsert_perm hk
      refine ((h₂ v).map Prod.fst).nodup_iff.mpr ?_
      exact (h₁.map Prod.fst).nodup_iff.mp h

/-- Removing a key that is there removes its entry. -/
theorem swapRemove_perm {m : IndexMap K V} {k : K} {v : V} (h : m.get? k = some v) :
    m.entries.Perm ((k, v) :: (m.swapRemove k).entries) := by
  have hidx : m.entries.findIdx? (fun e => e.1 = k) ≠ none := by
    intro hnone
    have := List.findIdx?_eq_none_iff.mp hnone _ (mem_of_get? h)
    simp at this
  obtain ⟨i, hi⟩ := Option.ne_none_iff_exists'.mp hidx
  obtain ⟨e, he, hkey, hlookup⟩ := lookup_of_findIdx? hi
  obtain rfl : v = e.2 := Option.some.inj (h.symm.trans hlookup)
  subst hkey
  obtain ⟨hlt, rfl⟩ := List.getElem?_eq_some_iff.mp he
  have hsplit : m.entries = m.entries.take i ++ m.entries[i] :: m.entries.drop (i + 1) := by
    rw [← List.drop_eq_getElem_cons hlt, List.take_append_drop]
  have hlen : (m.entries.take i).length = i := by
    rw [List.length_take]
    omega
  simp only [swapRemove, hi]
  generalize m.entries[i] = e at hsplit ⊢
  generalize m.entries.take i = pre at hsplit hlen
  generalize m.entries.drop (i + 1) = post at hsplit
  rcases List.eq_nil_or_concat post with rfl | ⟨mid, last, rfl⟩
  · -- the entry is the last one
    rw [hsplit, List.getLast?_append_cons]
    simp only [List.getLast?_singleton, List.length_append, List.length_singleton, hlen, if_true,
      List.dropLast_concat]
    exact List.perm_middle.trans (by simp)
  · -- the last entry takes its place
    rw [List.concat_eq_append] at hsplit
    have hlast : m.entries.getLast? = some last := by
      rw [hsplit, ← List.cons_append, ← List.append_assoc, List.getLast?_concat]
    have hne : i + 1 ≠ m.entries.length := by
      rw [hsplit]
      simp
      omega
    have hset : (m.entries.set i last).dropLast = pre ++ last :: mid := by
      have hset : (pre ++ e :: (mid ++ [last])).set i last = (pre ++ last :: mid) ++ [last] := by
        simp [← hlen]
      rw [hsplit, hset, List.dropLast_concat]
    rw [hlast]
    simp only [if_neg hne, hset]
    rw [hsplit]
    refine List.perm_middle.trans (.cons _ (.append_left _ ?_))
    exact List.perm_append_singleton last mid

/-- What is left under a key after another key was removed. -/
theorem get?_swapRemove {m : IndexMap K V} (hnodup : m.keys.Nodup) {k : K} {v : V} (h : m.get? k = some v)
    (k' : K) : (m.swapRemove k).get? k' = if k = k' then none else m.get? k' := by
  have hperm := swapRemove_perm h
  have hnodup' := (hperm.map Prod.fst).nodup_iff.mp hnodup
  obtain ⟨hnot, hrest⟩ := List.nodup_cons.mp hnodup'
  have heq : m.get? k' = lookup ((k, v) :: (m.swapRemove k).entries) k' := lookup_perm hnodup hperm k'
  by_cases hk : k = k'
  · subst hk
    rw [if_pos rfl]
    exact lookup_eq_none_iff.mpr hnot
  · rw [if_neg hk, heq]
    simp [lookup, hk, get?]

theorem keys_swapRemove_nodup {m : IndexMap K V} (hnodup : m.keys.Nodup) {k : K} {v : V}
    (h : m.get? k = some v) : (m.swapRemove k).keys.Nodup :=
  (List.nodup_cons.mp (((swapRemove_perm h).map Prod.fst).nodup_iff.mp hnodup)).2

end IndexMap
