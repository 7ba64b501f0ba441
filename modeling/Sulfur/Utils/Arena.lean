import Sulfur.Utils.Log
import Sulfur.Library.Heap

/-!
# The arena

The bump allocator of `arena.c`.  A chunk is named by the number of its block in the order in
which `malloc` returned them, and a pointer by a chunk and an offset from its data; memory
that the arena has not handed out is foreign.  Whether `malloc` has memory left is an input of
a call.  A function answers `none` when the source has no behaviour there, and a null pointer
is `some none`.
-/

namespace Sulfur

/-- `SIZE_MAX`. -/
def sizeMax : UInt64 :=
  18446744073709551615

/-- `SF_ARENA_ALIGNMENT`. -/
def arenaAlignment : UInt64 :=
  8

/-- `sizeof(sf_arena_chunk)`, the three words in front of the data. -/
def sizeofArenaChunk : UInt64 :=
  24

/-- `sf_arena_chunk`. -/
structure ArenaChunk where
  next : Option Nat := none
  size : UInt64
  used : UInt64 := 0
  deriving DecidableEq, Repr

/-- A pointer into a chunk, or into memory that no arena has. -/
inductive Pointer
  | data (chunk offset : Nat)
  | foreign (address : Nat)
  deriving DecidableEq, Repr

/-- Pointer arithmetic, in bytes. -/
def Pointer.add : Pointer → Nat → Pointer
  | data chunk offset, count => data chunk (offset + count)
  | foreign address, count => foreign (address + count)

/-- Two ranges of memory with a cell in common. -/
def Pointer.overlaps (first : Pointer) (firstSize : Nat) (second : Pointer)
    (secondSize : Nat) : Bool :=
  match first, second with
  | data chunk offset, data chunk' offset' =>
      chunk = chunk' && offset < offset' + secondSize && offset' < offset + firstSize
  | foreign address, foreign address' =>
      address < address' + secondSize && address' < address + firstSize
  | _, _ => false

/-- `sf_arena`, with the chunks that its pointers lead to and the contents of memory. -/
structure Arena where
  first : Option Nat := none
  current : Option Nat := none
  defaultChunkSize : UInt64
  chunks : List ArenaChunk := []
  memory : Pointer → UInt8

/-- `sf_arena_init`. -/
def arenaInit (defaultChunkSize : UInt64) (memory : Pointer → UInt8) : Arena :=
  { defaultChunkSize := defaultChunkSize
    memory := memory }

/-- `align_up_overflows`. -/
def alignUpOverflows (n align : UInt64) : Bool :=
  n > sizeMax - (align - 1)

/-- `align_up`. -/
def alignUp (n align : UInt64) : UInt64 :=
  (n + align - 1) &&& ~~~(align - 1)

/-- `arena_chunk_new`, given whether `malloc` succeeds. -/
def arenaChunkNew (available : Bool) (size : UInt64) : Option ArenaChunk :=
  if size > sizeMax - sizeofArenaChunk then
    none
  else if !available then
    none
  else
    some { size := size }

/-- The capacity that `sf_arena_grow_one` grows to. -/
def newCapacity (capacity : UInt64) : UInt64 :=
  if capacity = 0 then 8 else capacity * 2

namespace Arena

/-- The chunk that `current` points to, if it is not null. -/
def currentChunk (arena : Arena) : Option (Option ArenaChunk) :=
  match arena.current with
  | none => some none
  | some current => arena.chunks[current]?.map some

/-- The new chunk goes behind the current one. -/
def link (arena : Arena) (chunk : ArenaChunk) : Arena :=
  let pointer := arena.chunks.length
  match arena.current with
  | some current =>
      { arena with
        current := some pointer
        chunks := arena.chunks.modify current (fun last => { last with next := some pointer }) ++
          [chunk] }
  | none =>
      { arena with
        first := some pointer
        current := some pointer
        chunks := arena.chunks ++ [chunk] }

/-- The part of `arena_ensure_space` behind the test of the current chunk. -/
def addChunk (arena : Arena) (available : Bool) (aligned : UInt64) : Bool × Arena :=
  let chunkSize :=
    if aligned > arena.defaultChunkSize then aligned else arena.defaultChunkSize
  match arenaChunkNew available chunkSize with
  | none => (false, arena)
  | some chunk => (true, arena.link chunk)

/-- `arena_ensure_space`. -/
def ensureSpace (arena : Arena) (available : Bool) (aligned : UInt64) :
    Option (Bool × Arena) := do
  let current ← arena.currentChunk
  if current.any fun chunk => chunk.size - chunk.used ≥ aligned then
    some (true, arena)
  else
    some (arena.addChunk available aligned)

/-- The write `chunk->used += aligned`. -/
def bump (arena : Arena) (current : Nat) (aligned : UInt64) : Arena :=
  { arena with
    chunks := arena.chunks.modify current fun chunk =>
      { chunk with used := chunk.used + aligned } }

/-- `sf_arena_alloc`. -/
def alloc (arena : Arena) (available : Bool) (size : UInt64) :
    Option (Option Pointer × Arena) := do
  if alignUpOverflows size arenaAlignment then
    some (none, arena)
  else
    let aligned := alignUp size arenaAlignment
    let (ok, arena) ← arena.ensureSpace available aligned
    if !ok then
      some (none, arena)
    else
      let current ← arena.current
      let chunk ← arena.chunks[current]?
      some (some (.data current chunk.used.toNat), arena.bump current aligned)

/-- `memcpy`, which has no behaviour when its ranges overlap. -/
def memcpy (arena : Arena) (target source : Pointer) (count : UInt64) : Option Arena :=
  if target.overlaps count.toNat source count.toNat then
    none
  else
    some { arena with
      memory := fun pointer =>
        match (List.range count.toNat).find? fun k => target.add k = pointer with
        | some k => arena.memory (source.add k)
        | none => arena.memory pointer }

/-- `sf_arena_grow_array`. -/
def growArray (arena : Arena) (available : Bool) (oldArray : Option Pointer)
    (oldCount newCount elemSize : UInt64) : Option (Option Pointer × Arena) := do
  if elemSize ≠ 0 ∧ newCount > sizeMax / elemSize then
    some (none, arena)
  else
    let (newArray, arena) ← arena.alloc available (newCount * elemSize)
    match newArray, oldArray with
    | some newArray, some oldArray =>
        if oldCount > 0 then
          let copyCount := if oldCount < newCount then oldCount else newCount
          let arena ← arena.memcpy newArray oldArray (copyCount * elemSize)
          some (some newArray, arena)
        else
          some (some newArray, arena)
    | newArray, _ => some (newArray, arena)

/-- What `sf_arena_grow_one` returns, leaves in `*capacity` and logs. -/
structure Growth where
  items : Option Pointer
  capacity : UInt64
  arena : Arena
  log : Log

/-- `sf_arena_grow_one`. -/
def growOne (arena : Arena) (available : Bool) (items : Option Pointer)
    (count capacity elemSize : UInt64) : Option Growth := do
  if count < capacity then
    some ⟨items, capacity, arena, []⟩
  else
    let (grown, arena) ← arena.growArray available items count (newCapacity capacity) elemSize
    match grown with
    | none =>
        some ⟨none, capacity, arena,
          [{ title := "insufficient memory"
             desc := "cannot allocate memory for compiling"
             hint := some "free some memory and try again"
             file := "N/A"
             code := .generalInsufficientMemory
             span := {}
             severity := .fatal }]⟩
    | some grown => some ⟨some grown, newCapacity capacity, arena, []⟩

end Arena

/-- A call of one of the three allocating functions, with its arguments besides the arena. -/
inductive ArenaCall
  | alloc (size : UInt64)
  | growArray (oldArray : Option Pointer) (oldCount newCount elemSize : UInt64)
  | growOne (items : Option Pointer) (count capacity elemSize : UInt64)
  deriving DecidableEq, Repr

/-- The pointer that a call returns, and the arena that it leaves. -/
def Arena.call (arena : Arena) (available : Bool) :
    ArenaCall → Option (Option Pointer × Arena)
  | .alloc size => arena.alloc available size
  | .growArray oldArray oldCount newCount elemSize =>
      arena.growArray available oldArray oldCount newCount elemSize
  | .growOne items count capacity elemSize =>
      (arena.growOne available items count capacity elemSize).map fun growth =>
        (growth.items, growth.arena)

end Sulfur
