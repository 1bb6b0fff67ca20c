import Resolvo.Model.Tracker

/-!
# `Model.Mapping` — chunked storage addressed by dense ids

`Mapping` holds values under ids that convert to and from an index. The slots are kept in chunks of a
fixed size that are allocated on demand; next to them stand the number of filled slots and the highest
index a value was ever stored at.
-/

namespace Resolvo

/-- Ids that are transformed to and from an index. -/
class DenseIndex (K : Type) where
  fromIndex : Nat → K
  toIndex : K → Nat
  fromIndex_toIndex : ∀ k, fromIndex (toIndex k) = k

namespace DenseIndex

variable {K : Type} [DenseIndex K]

theorem toIndex_inj {k k' : K} : toIndex k = toIndex k' ↔ k = k' := by
  constructor
  · intro h
    rw [← fromIndex_toIndex k, h, fromIndex_toIndex]
  · intro h
    rw [h]

instance : DenseIndex Nat where
  fromIndex := id
  toIndex := id
  fromIndex_toIndex _ := rfl

/-- A literal is encoded in the index of its variable and one bit for the sign. -/
instance : DenseIndex Literal where
  fromIndex i := ⟨i / 2, i % 2 = 1⟩
  toIndex l := 2 * l.var + l.negate.toNat
  fromIndex_toIndex l := by
    obtain ⟨v, n⟩ := l
    cases n with
    | false => simp
    | true =>
      have hdiv : (2 * v + 1) / 2 = v := Nat.mul_add_div (by decide) v 1
      simp [hdiv]

end DenseIndex

/-- A data format: how a list of optional values is written and read. -/
structure SerdeFormat (V D : Type) where
  serialize : List (Option V) → D
  deserialize : D → Option (List (Option V))

def valuesPerChunk : Nat := 128

abbrev Chunk (V : Type) := Vector (Option V) valuesPerChunk

structure Mapping (K V : Type) where
  chunks : List (Chunk V)
  len : Nat
  max : Nat

namespace Mapping

variable {K V : Type}

def emptyChunk : Chunk V := Vector.replicate valuesPerChunk none

def withCapacity (n : Nat) : Mapping K V :=
  let n := Nat.max 1 n
  let nChunks := (n - 1) / valuesPerChunk + 1
  { chunks := List.replicate nChunks emptyChunk, len := 0, max := 0 }

def new : Mapping K V := withCapacity 1

def chunkAndOffset (id : Nat) : Nat × Nat := (id / valuesPerChunk, id % valuesPerChunk)

theorem offset_lt (id : Nat) : (chunkAndOffset id).2 < valuesPerChunk :=
  Nat.mod_lt id (by decide)

/-- The content of a slot; a slot beyond the last chunk is empty. -/
def slot (chunks : List (Chunk V)) (idx : Nat) : Option V :=
  (chunks[(chunkAndOffset idx).1]?).bind fun chunk => chunk.get ⟨_, offset_lt idx⟩

/-- Allocate chunks until the slot exists. -/
def resize (chunks : List (Chunk V)) (idx : Nat) : List (Chunk V) :=
  if chunks.length ≤ (chunkAndOffset idx).1 then
    chunks ++ List.replicate ((chunkAndOffset idx).1 + 1 - chunks.length) emptyChunk
  else chunks

/-- Overwrite a slot that exists. -/
def store (chunks : List (Chunk V)) (idx : Nat) (content : Option V) : List (Chunk V) :=
  chunks.modify (chunkAndOffset idx).1 fun chunk => chunk.set _ content (offset_lt idx)

variable [DenseIndex K]

def get (m : Mapping K V) (id : K) : Option V := slot m.chunks (DenseIndex.toIndex id)

/-- Store a value; the previous one is returned. -/
def insert (m : Mapping K V) (id : K) (value : V) : Option V × Mapping K V :=
  let idx := DenseIndex.toIndex id
  let chunks := resize m.chunks idx
  let previous := slot chunks idx
  (previous,
    { chunks := store chunks idx (some value)
      len := if previous.isNone then m.len + 1 else m.len
      max := Nat.max m.max idx })

/-- The value of an id, after storing `default` if the slot is empty. -/
def getOrInsertWith (m : Mapping K V) (id : K) (default : V) : V × Mapping K V :=
  let idx := DenseIndex.toIndex id
  let chunks := resize m.chunks idx
  match slot chunks idx with
  | some value => (value, { m with chunks })
  | none =>
      (default,
        { chunks := store chunks idx (some default)
          len := m.len + 1
          max := Nat.max m.max idx })

/-- Empty a slot; the previous value is returned. -/
def unset (m : Mapping K V) (id : K) : Option V × Mapping K V :=
  let idx := DenseIndex.toIndex id
  if m.chunks.length ≤ (chunkAndOffset idx).1 then (none, m)
  else
    let previous := slot m.chunks idx
    (previous,
      { m with
        chunks := store m.chunks idx none
        len := if previous.isSome then m.len - 1 else m.len })

/-- Change a value in place (`get_mut`); `none` if there is none. -/
def modify (m : Mapping K V) (id : K) (f : V → V) : Option (Mapping K V) :=
  (m.get id).map fun value =>
    { m with chunks := store m.chunks (DenseIndex.toIndex id) (some (f value)) }

/-- The pairs an iteration yields: it goes through the indices below the number of values. -/
def iter (m : Mapping K V) : List (K × V) :=
  (List.range m.len).filterMap fun i => (slot m.chunks i).map fun value => (DenseIndex.fromIndex i, value)

/-- The slots up to the highest index, in order. -/
def content (m : Mapping K V) : List (Option V) := (m.chunks.flatMap Vector.toList).take (m.max + 1)

def ofContent (values : List (Option V)) : Mapping K V :=
  values.zipIdx.foldl
    (fun m (value, i) =>
      match value with
      | some value => (m.insert (DenseIndex.fromIndex i) value).2
      | none => m)
    (withCapacity values.length)

variable {D : Type}

def serialize (format : SerdeFormat V D) (m : Mapping K V) : D := format.serialize m.content

def deserialize (format : SerdeFormat V D) (data : D) : Option (Mapping K V) :=
  (format.deserialize data).map ofContent

end Mapping

/-- An iterator over a mapping. -/
structure MappingIter (K V : Type) where
  mapping : Mapping K V
  offset : Nat

namespace MappingIter

variable {K V : Type} [DenseIndex K]

/-- The next pair, and the iterator after it. -/
def next (it : MappingIter K V) : Option ((K × V) × MappingIter K V) :=
  if it.offset < it.mapping.len then
    match Mapping.slot it.mapping.chunks it.offset with
    | some value => some ((DenseIndex.fromIndex it.offset, value), { it with offset := it.offset + 1 })
    | none => next { it with offset := it.offset + 1 }
  else none
termination_by it.mapping.len - it.offset

end MappingIter

end Resolvo
