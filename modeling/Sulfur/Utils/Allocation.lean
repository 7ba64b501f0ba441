import Sulfur.Utils.Arena

/-!
# Allocations of an arena

The results of all calls on one arena are regions of its chunks that do not meet.  The
invariant is that every chunk is handed out from its start to `used` and that the pointers
between the chunks lead through all of them in the order in which they were made.
-/

namespace Sulfur

open Heap

/-! ## Machine arithmetic -/

theorem land_complement_seven {n : Nat} (bound : n < 2 ^ 64) :
    n &&& (2 ^ 64 - 1 - 7) = n / 8 * 8 := by
  have mask : 2 ^ 64 - 1 - 7 = (2 ^ 61 - 1) <<< 3 := by decide
  have multiple : n / 8 * 8 = (n >>> 3) <<< 3 := by
    rw [Nat.shiftLeft_eq, Nat.shiftRight_eq_div_pow]
  apply Nat.eq_of_testBit_eq
  intro i
  rw [mask, multiple, Nat.testBit_and, Nat.testBit_shiftLeft, Nat.testBit_shiftLeft,
    Nat.testBit_two_pow_sub_one, Nat.testBit_shiftRight]
  by_cases low : 3 ≤ i
  · by_cases high : i < 64
    · simp [low]
      omega
    · have large : n < 2 ^ i :=
        bound.trans_le (Nat.pow_le_pow_right (by decide) (Nat.le_of_not_lt high))
      simp [Nat.testBit_lt_two_pow large, low]
  · simp [low]

theorem alignUpOverflows_iff (n : UInt64) :
    alignUpOverflows n arenaAlignment ↔ 2 ^ 64 ≤ n.toNat + 7 := by
  unfold alignUpOverflows
  rw [decide_eq_true_iff, gt_iff_lt, UInt64.lt_iff_toNat_lt]
  change 2 ^ 64 - 1 - 7 < n.toNat ↔ _
  omega

/-- The size of an allocation is rounded up to the alignment. -/
theorem toNat_alignUp {n : UInt64} (fits : n.toNat + 7 < 2 ^ 64) :
    (alignUp n arenaAlignment).toNat = (n.toNat + 7) / 8 * 8 := by
  have sum : (n + arenaAlignment - 1).toNat = n.toNat + 7 := by
    rw [UInt64.toNat_sub, UInt64.toNat_add]
    change (2 ^ 64 - 1 + (n.toNat + 8) % 2 ^ 64) % 2 ^ 64 = _
    omega
  rw [alignUp, UInt64.toNat_and, UInt64.toNat_not, sum]
  exact land_complement_seven fits

theorem toNat_newCapacity {capacity : UInt64} (small : capacity.toNat < 2 ^ 63) :
    (newCapacity capacity).toNat = if capacity = 0 then 8 else 2 * capacity.toNat := by
  unfold newCapacity
  split
  · rfl
  · rw [UInt64.toNat_mul]
    change capacity.toNat * 2 % 2 ^ 64 = _
    omega

/-- The test of `sf_arena_grow_array` tells whether the byte count fits. -/
theorem count_overflows_iff (count elemSize : UInt64) :
    (elemSize ≠ 0 ∧ count > sizeMax / elemSize) ↔
      2 ^ 64 ≤ count.toNat * elemSize.toNat := by
  rw [gt_iff_lt, UInt64.lt_iff_toNat_lt, UInt64.toNat_div, ne_eq, ← UInt64.toNat_inj]
  change (¬elemSize.toNat = 0 ∧ (2 ^ 64 - 1) / elemSize.toNat < count.toNat) ↔ _
  constructor
  · rintro ⟨nonzero, large⟩
    have bound := (Nat.div_lt_iff_lt_mul (Nat.pos_of_ne_zero nonzero)).mp large
    omega
  · intro large
    have nonzero : elemSize.toNat ≠ 0 := by
      rintro zero
      rw [zero, Nat.mul_zero] at large
      exact absurd large (by decide)
    exact ⟨nonzero, (Nat.div_lt_iff_lt_mul (Nat.pos_of_ne_zero nonzero)).mpr (by omega)⟩

/-! ## Chunks -/

/-- What is handed out of a chunk is a front of it. -/
structure ArenaChunk.Sound (chunk : ArenaChunk) : Prop where
  inside : chunk.used ≤ chunk.size
  aligned : 8 ∣ chunk.used.toNat

namespace Arena

/-- The link of a chunk, if there is such a chunk. -/
def links (arena : Arena) (chunk : Nat) : Option (Option Nat) :=
  arena.chunks[chunk]?.map ArenaChunk.next

/-- The chunks are linked in the order in which they were made, and each is sound. -/
structure WellFormed (arena : Arena) : Prop where
  path : Path arena.links arena.first (List.range arena.chunks.length)
  current : arena.current = (List.range arena.chunks.length).getLast?
  sound : ∀ (index : Nat) (chunk : ArenaChunk), arena.chunks[index]? = some chunk → chunk.Sound

/-- Nothing that is handed out is taken back. -/
def Keeps (before after : Arena) : Prop :=
  ∀ (index : Nat) (chunk : ArenaChunk), before.chunks[index]? = some chunk →
    ∃ later, after.chunks[index]? = some later ∧ later.size = chunk.size ∧
      chunk.used ≤ later.used

theorem Keeps.refl (arena : Arena) : arena.Keeps arena :=
  fun _ chunk found => ⟨chunk, found, rfl, UInt64.le_refl _⟩

theorem Keeps.trans {first second third : Arena} (before : first.Keeps second)
    (after : second.Keeps third) : first.Keeps third := by
  intro index chunk found
  rcases before index chunk found with ⟨later, foundLater, size, used⟩
  rcases after index later foundLater with ⟨last, foundLast, lastSize, lastUsed⟩
  exact ⟨last, foundLast, lastSize.trans size, UInt64.le_trans used lastUsed⟩

theorem wellFormed_arenaInit (defaultChunkSize : UInt64) (memory : Pointer → UInt8) :
    (arenaInit defaultChunkSize memory).WellFormed := by
  constructor
  · exact .nil
  · rfl
  · rintro index chunk found
    simp [arenaInit] at found

/-- The current chunk is the one that was made last. -/
theorem WellFormed.current_eq {arena : Arena} (wellFormed : arena.WellFormed) :
    (arena.chunks = [] ∧ arena.current = none) ∨
      ∃ last, arena.chunks.length = last + 1 ∧ arena.current = some last := by
  cases length : arena.chunks.length with
  | zero =>
      have current := wellFormed.current
      rw [length] at current
      exact Or.inl ⟨List.eq_nil_of_length_eq_zero length, current⟩
  | succ last =>
      have current := wellFormed.current
      rw [length, List.range_succ, List.getLast?_concat] at current
      exact Or.inr ⟨last, rfl, current⟩

/-! ## A new chunk -/

/-- Linking a chunk changes the link of the chunk before it and no more. -/
theorem getElem?_link (arena : Arena) (chunk : ArenaChunk) {index : Nat}
    (old : index < arena.chunks.length) :
    ∃ next, (arena.link chunk).chunks[index]? =
        arena.chunks[index]?.map (fun before => { before with next := next before }) ∧
      (arena.current ≠ some index → next = ArenaChunk.next) := by
  unfold link
  cases current : arena.current with
  | none => exact ⟨ArenaChunk.next, by simp [List.getElem?_append_left, old], fun _ => rfl⟩
  | some last =>
      by_cases isLast : last = index
      · refine ⟨fun _ => some arena.chunks.length, ?_, fun other => ?_⟩
        · simp [List.getElem?_append_left, old, isLast]
        · exact absurd (congrArg some isLast) other
      · refine ⟨ArenaChunk.next, ?_, fun _ => rfl⟩
        simp [List.getElem?_append_left, old, isLast]

theorem getElem?_link_length (arena : Arena) (chunk : ArenaChunk) :
    (arena.link chunk).chunks[arena.chunks.length]? = some chunk := by
  unfold link
  cases arena.current <;> simp

theorem length_link (arena : Arena) (chunk : ArenaChunk) :
    (arena.link chunk).chunks.length = arena.chunks.length + 1 := by
  unfold link
  cases arena.current <;> simp

theorem current_link (arena : Arena) (chunk : ArenaChunk) :
    (arena.link chunk).current = some arena.chunks.length := by
  unfold link
  cases arena.current <;> rfl

theorem keeps_link (arena : Arena) (chunk : ArenaChunk) :
    arena.Keeps (arena.link chunk) := by
  intro index before found
  rcases List.getElem?_eq_some_iff.mp found with ⟨old, -⟩
  rcases arena.getElem?_link chunk old with ⟨next, linked, -⟩
  rw [found] at linked
  exact ⟨_, linked, rfl, UInt64.le_refl _⟩

/-- The chunks still lead from the first one to the last one. -/
theorem path_link {arena : Arena} (wellFormed : arena.WellFormed) {chunk : ArenaChunk}
    (ends : chunk.next = none) :
    Path (arena.link chunk).links (arena.link chunk).first
      (List.range (arena.chunks.length + 1)) := by
  have newLink : (arena.link chunk).links arena.chunks.length = some none := by
    rw [links, getElem?_link_length, Option.map_some, ends]
  rcases wellFormed.current_eq with ⟨empty, current⟩ | ⟨last, length, current⟩
  · have first : (arena.link chunk).first = some 0 := by
      simp [link, current, empty]
    rw [first, empty]
    rw [empty] at newLink
    exact .cons newLink .nil
  · have first : (arena.link chunk).first = arena.first := by
      simp [link, current]
    have lastLink : (arena.link chunk).links last = some (some arena.chunks.length) := by
      simp [links, link, current, length]
    have path := wellFormed.path
    rw [length, List.range_succ] at path
    rw [first, List.range_succ, length, List.range_succ]
    rw [length] at newLink lastLink
    refine path.concat (List.range_succ ▸ List.nodup_range) (fun node inFront => ?_) lastLink
      newLink
    have before : node < last := List.mem_range.mp inFront
    rcases arena.getElem?_link chunk (show node < arena.chunks.length by omega) with
      ⟨next, linked, same⟩
    have notLast : arena.current ≠ some node := by
      rw [current]
      simp only [ne_eq, Option.some.injEq]
      omega
    rw [same notLast] at linked
    rw [links, links, linked, Option.map_map]
    rfl

theorem wellFormed_link {arena : Arena} (wellFormed : arena.WellFormed) {chunk : ArenaChunk}
    (ends : chunk.next = none) (sound : chunk.Sound) : (arena.link chunk).WellFormed := by
  constructor
  · rw [length_link]
    exact path_link wellFormed ends
  · rw [length_link, current_link, List.range_succ, List.getLast?_concat]
  · intro index later found
    rcases List.getElem?_eq_some_iff.mp found with ⟨inside, -⟩
    rw [length_link] at inside
    rcases Nat.lt_succ_iff_lt_or_eq.mp inside with old | rfl
    · rcases arena.getElem?_link chunk old with ⟨next, linked, -⟩
      rw [found] at linked
      rcases Option.map_eq_some_iff.mp linked.symm with ⟨before, foundBefore, rfl⟩
      have soundBefore := wellFormed.sound index before foundBefore
      exact ⟨soundBefore.inside, soundBefore.aligned⟩
    · rw [getElem?_link_length] at found
      exact Option.some.inj found ▸ sound

/-! ## Space in the current chunk -/

theorem eq_of_arenaChunkNew {available : Bool} {size : UInt64} {chunk : ArenaChunk}
    (new : arenaChunkNew available size = some chunk) :
    chunk.next = none ∧ chunk.size = size ∧ chunk.used = 0 := by
  unfold arenaChunkNew at new
  split at new
  · cases new
  · split at new
    · cases new
    · obtain rfl := Option.some.inj new
      exact ⟨rfl, rfl, rfl⟩

/-- What `arena_ensure_space` leaves behind when it succeeds. -/
structure Room (before : Arena) (aligned : UInt64) (after : Arena) (pointer : Nat)
    (chunk : ArenaChunk) : Prop where
  wellFormed : after.WellFormed
  current : after.current = some pointer
  found : after.chunks[pointer]? = some chunk
  enough : aligned ≤ chunk.size - chunk.used
  keeps : before.Keeps after
  fresh : ∀ old, before.chunks[pointer]? = some old → old.used = chunk.used
  memory : after.memory = before.memory

theorem currentChunk_cases {arena : Arena} (wellFormed : arena.WellFormed) :
    arena.currentChunk = some none ∨
      ∃ pointer chunk, arena.currentChunk = some (some chunk) ∧
        arena.current = some pointer ∧ arena.chunks[pointer]? = some chunk := by
  unfold Arena.currentChunk
  rcases wellFormed.current_eq with ⟨-, current⟩ | ⟨last, length, current⟩
  · exact Or.inl (by rw [current])
  · have found := List.getElem?_eq_getElem (show last < arena.chunks.length by omega)
    exact Or.inr ⟨last, arena.chunks[last], by simp [current, found], current, found⟩

theorem addChunk_cases {arena : Arena} (wellFormed : arena.WellFormed) (available : Bool)
    (aligned : UInt64) :
    arena.addChunk available aligned = (false, arena) ∨
      ∃ after pointer chunk, arena.addChunk available aligned = (true, after) ∧
        Room arena aligned after pointer chunk := by
  unfold addChunk
  dsimp only
  split
  · exact Or.inl rfl
  · rename_i chunk new
    rcases eq_of_arenaChunkNew new with ⟨ends, size, used⟩
    have sound : chunk.Sound := by
      constructor
      · rw [used]
        exact UInt64.zero_le
      · rw [used]
        exact dvd_zero 8
    refine Or.inr ⟨_, arena.chunks.length, chunk, rfl, ?_⟩
    constructor
    · exact wellFormed_link wellFormed ends sound
    · exact current_link arena chunk
    · exact getElem?_link_length arena chunk
    · rw [used, size, UInt64.sub_zero]
      split
      · exact UInt64.le_refl _
      · rename_i notLarger
        exact UInt64.not_lt.mp notLarger
    · exact keeps_link arena chunk
    · intro old found
      simp at found
    · unfold link
      cases arena.current <;> rfl

theorem ensureSpace_cases {arena : Arena} (wellFormed : arena.WellFormed)
    (available : Bool) (aligned : UInt64) :
    arena.ensureSpace available aligned = some (false, arena) ∨
      ∃ after pointer chunk, arena.ensureSpace available aligned = some (true, after) ∧
        Room arena aligned after pointer chunk := by
  have added : some (arena.addChunk available aligned) = some (false, arena) ∨
      ∃ after pointer chunk, some (arena.addChunk available aligned) = some (true, after) ∧
        Room arena aligned after pointer chunk := by
    rcases addChunk_cases wellFormed available aligned with
      failed | ⟨after, pointer, chunk, done, room⟩
    · exact Or.inl (congrArg some failed)
    · exact Or.inr ⟨after, pointer, chunk, congrArg some done, room⟩
  unfold ensureSpace
  rcases currentChunk_cases wellFormed with isNull | ⟨pointer, chunk, isChunk, current, found⟩
  · rw [isNull]
    exact added
  · rw [isChunk, Option.bind_eq_bind, Option.bind_some, Option.any_some]
    split
    · rename_i enough
      exact Or.inr ⟨arena, pointer, chunk, rfl, wellFormed, current, found,
        of_decide_eq_true enough, .refl arena,
        fun old same => by rw [Option.some.inj (same.symm.trans found)], rfl⟩
    · exact added

/-! ## An allocation -/

/-- The chunk that `used` is raised in. -/
theorem getElem?_bump (arena : Arena) (pointer index : Nat) (aligned : UInt64) :
    (arena.bump pointer aligned).chunks[index]? =
      arena.chunks[index]?.map fun chunk =>
        if pointer = index then { chunk with used := chunk.used + aligned } else chunk := by
  simp only [bump, List.getElem?_modify]
  by_cases same : pointer = index <;> simp [same]

theorem links_bump (arena : Arena) (pointer : Nat) (aligned : UInt64) :
    (arena.bump pointer aligned).links = arena.links := by
  funext index
  rw [links, links, getElem?_bump, Option.map_map]
  congr 1
  funext chunk
  dsimp only [Function.comp]
  split <;> rfl

/-- What `sf_arena_alloc` leaves behind when it succeeds: the region is new and inside of its
chunk. -/
structure Grants (before : Arena) (region : Region) (after : Arena) : Prop where
  wellFormed : after.WellFormed
  inside : ∃ chunk, after.chunks[region.block]? = some chunk ∧
    region.offset + region.size ≤ chunk.used.toNat
  aligned : 8 ∣ region.offset
  fresh : ∀ old, before.chunks[region.block]? = some old → old.used.toNat ≤ region.offset
  keeps : before.Keeps after

theorem Room.grants {before after : Arena} {size : UInt64} {pointer : Nat}
    {chunk : ArenaChunk} (fits : size.toNat + 7 < 2 ^ 64)
    (room : Room before (alignUp size arenaAlignment) after pointer chunk) :
    Grants before ⟨pointer, chunk.used.toNat, size.toNat⟩
      (after.bump pointer (alignUp size arenaAlignment)) := by
  have sound := room.wellFormed.sound pointer chunk room.found
  have rounded := toNat_alignUp fits
  have enough : (alignUp size arenaAlignment).toNat ≤
      chunk.size.toNat - chunk.used.toNat := by
    rw [← UInt64.toNat_sub_of_le _ _ sound.inside]
    exact UInt64.le_iff_toNat_le.mp room.enough
  have inside := UInt64.le_iff_toNat_le.mp sound.inside
  have small : chunk.size.toNat < 2 ^ 64 := chunk.size.toNat_lt
  have used : (chunk.used + alignUp size arenaAlignment).toNat =
      chunk.used.toNat + (alignUp size arenaAlignment).toNat := by
    rw [UInt64.toNat_add]
    omega
  constructor
  · constructor
    · rw [links_bump]
      have path := room.wellFormed.path
      simpa [bump] using path
    · have current := room.wellFormed.current
      simpa [bump] using current
    · intro index later found
      rw [getElem?_bump] at found
      rcases Option.map_eq_some_iff.mp found with ⟨old, foundOld, rfl⟩
      have soundOld := room.wellFormed.sound index old foundOld
      split
      · rename_i same
        obtain rfl : old = chunk := by
          rw [← same, room.found] at foundOld
          exact (Option.some.inj foundOld).symm
        constructor
        · rw [UInt64.le_iff_toNat_le]
          dsimp only
          omega
        · dsimp only
          rw [used, rounded]
          exact dvd_add sound.aligned (Nat.dvd_mul_left 8 _)
      · exact soundOld
  · refine ⟨{ chunk with used := chunk.used + alignUp size arenaAlignment }, ?_, ?_⟩
    · dsimp only
      rw [getElem?_bump, room.found, Option.map_some, if_pos rfl]
    · dsimp only
      omega
  · exact sound.aligned
  · intro old found
    rw [room.fresh old found]
  · apply room.keeps.trans
    intro index old found
    rw [getElem?_bump, found, Option.map_some]
    refine ⟨_, rfl, ?_⟩
    split
    · rename_i same
      obtain rfl : old = chunk := by
        rw [← same, room.found] at found
        exact (Option.some.inj found).symm
      refine ⟨rfl, UInt64.le_iff_toNat_le.mpr ?_⟩
      dsimp only
      omega
    · exact ⟨rfl, UInt64.le_refl _⟩

theorem alloc_cases {arena : Arena} (wellFormed : arena.WellFormed) (available : Bool)
    (size : UInt64) :
    arena.alloc available size = some (none, arena) ∨
      size.toNat + 7 < 2 ^ 64 ∧ ∃ block offset after,
        arena.alloc available size = some (some (.data block offset), after) ∧
          Grants arena ⟨block, offset, size.toNat⟩ after ∧ after.memory = arena.memory := by
  unfold alloc
  split
  · exact Or.inl rfl
  · rename_i fits
    rw [alignUpOverflows_iff, Nat.not_le] at fits
    dsimp only
    rcases ensureSpace_cases wellFormed available (alignUp size arenaAlignment) with
      failed | ⟨after, pointer, chunk, done, room⟩
    · rw [failed]
      exact Or.inl rfl
    · rw [done]
      refine Or.inr ⟨fits, pointer, chunk.used.toNat, _, ?_, room.grants fits, room.memory⟩
      simp [room.current, room.found]

end Arena

/-! ## Copies -/

theorem Pointer.add_inj {pointer : Pointer} {first second : Nat} :
    pointer.add first = pointer.add second ↔ first = second := by
  cases pointer <;> simp [Pointer.add]

namespace Arena

theorem memcpy_eq {arena : Arena} {target source : Pointer} {count : UInt64}
    (apart : target.overlaps count.toNat source count.toNat = false) :
    ∃ memory, arena.memcpy target source count = some { arena with memory := memory } ∧
      (∀ k < count.toNat, memory (target.add k) = arena.memory (source.add k)) ∧
      ∀ pointer, (∀ k < count.toNat, target.add k ≠ pointer) →
        memory pointer = arena.memory pointer := by
  unfold memcpy
  rw [apart]
  refine ⟨_, rfl, fun k inside => ?_, fun pointer outside => ?_⟩
  · have found : (List.range count.toNat).find? (fun j => target.add j = target.add k) =
        some k := by
      rw [List.find?_range_eq_some]
      refine ⟨by simp, List.mem_range.mpr inside, fun j before => ?_⟩
      simp [Pointer.add_inj, before.ne]
    rw [found]
  · have missing : (List.range count.toNat).find? (fun j => target.add j = pointer) =
        none := by
      simpa using outside
    rw [missing]

end Arena

/-! ## What a call asks for -/

/-- The array that a call makes, and the one whose elements go into it. -/
structure Demand where
  old : Option Pointer := none
  oldCount : Nat := 0
  newCount : Nat
  elemSize : Nat
  deriving DecidableEq, Repr

/-- The size of a demand in bytes. -/
def Demand.bytes (demand : Demand) : Nat :=
  demand.newCount * demand.elemSize

/-- The elements of the old array, as far as there is room for them. -/
def Demand.copied (demand : Demand) : Nat :=
  min demand.oldCount demand.newCount * demand.elemSize

/-- An array with room for one more element needs nothing. -/
def ArenaCall.demand : ArenaCall → Option Demand
  | .alloc size => some { newCount := size.toNat, elemSize := 1 }
  | .growArray old oldCount newCount elemSize =>
      some ⟨old, oldCount.toNat, newCount.toNat, elemSize.toNat⟩
  | .growOne items count capacity elemSize =>
      if count < capacity then
        none
      else
        some ⟨items, count.toNat, if capacity = 0 then 8 else 2 * capacity.toNat,
          elemSize.toNat⟩

/-- The capacity that a call doubles has a double. -/
def ArenaCall.Doubles : ArenaCall → Prop
  | .growOne _ count capacity _ => capacity ≤ count → capacity.toNat < 2 ^ 63
  | _ => True

/-- The elements to copy are in foreign memory or in what an arena has handed out. -/
def Demand.Stored (demand : Demand) (arena : Arena) : Prop :=
  ∀ old ∈ demand.old, 0 < demand.copied →
    (∃ address, old = .foreign address) ∨
      ∃ block offset chunk, old = .data block offset ∧ arena.chunks[block]? = some chunk ∧
        offset + demand.copied ≤ chunk.used.toNat

/-- A demand is met by a region. -/
structure Demand.Served (demand : Demand) (before : Arena) (region : Region)
    (after : Arena) : Prop where
  grants : before.Grants region after
  size : region.size = demand.bytes
  copied : ∀ old ∈ demand.old, ∀ k < demand.copied,
    after.memory (.data region.block (region.offset + k)) = before.memory (old.add k)
  others : ∀ pointer, (∀ k < region.size, pointer ≠ .data region.block (region.offset + k)) →
    after.memory pointer = before.memory pointer

namespace Arena

/-- The contents of memory are no matter of the invariant. -/
theorem Grants.with_memory {before after : Arena} {region : Region}
    (grants : before.Grants region after) (memory : Pointer → UInt8) :
    before.Grants region { after with memory := memory } where
  wellFormed := ⟨grants.wellFormed.path, grants.wellFormed.current, grants.wellFormed.sound⟩
  inside := grants.inside
  aligned := grants.aligned
  fresh := grants.fresh
  keeps := grants.keeps

/-- Elements that are stored somewhere are not in a new region. -/
theorem Grants.apart {before after : Arena} {region : Region}
    (grants : before.Grants region after) {demand : Demand} (stored : demand.Stored before)
    {old : Pointer} (isOld : old ∈ demand.old) :
    (Pointer.data region.block region.offset).overlaps demand.copied old demand.copied =
      false := by
  by_cases some : 0 < demand.copied
  · rcases stored old isOld some with ⟨address, rfl⟩ | ⟨block, offset, chunk, rfl, found, below⟩
    · rfl
    · simp only [Pointer.overlaps, Bool.and_eq_false_iff, decide_eq_false_iff_not, Nat.not_lt]
      by_cases same : region.block = block
      · have fresh := grants.fresh chunk (same ▸ found)
        exact Or.inl (Or.inr (below.trans fresh))
      · exact Or.inl (Or.inl same)
  · obtain zero : demand.copied = 0 := Nat.eq_zero_of_not_pos some
    rw [zero]
    cases old with
    | foreign address => rfl
    | data block offset =>
        simp only [Pointer.overlaps, Nat.add_zero, Bool.and_eq_false_iff,
          decide_eq_false_iff_not]
        omega

/-- An allocation meets a demand without elements to copy. -/
theorem Grants.served {before after : Arena} {block offset : Nat} (demand : Demand)
    (grants : before.Grants ⟨block, offset, demand.bytes⟩ after)
    (memory : after.memory = before.memory)
    (nothing : ∀ old ∈ demand.old, demand.copied = 0) :
    demand.Served before ⟨block, offset, demand.bytes⟩ after where
  grants := grants
  size := rfl
  copied := by
    intro old isOld k inside
    rw [nothing old isOld] at inside
    exact absurd inside (Nat.not_lt_zero k)
  others := fun pointer _ => congrFun memory pointer

/-- The copy of `sf_arena_grow_array` fills a front of the new region. -/
theorem Grants.served_memcpy {before after : Arena} {block offset : Nat} (demand : Demand)
    (grants : before.Grants ⟨block, offset, demand.bytes⟩ after)
    (memory : after.memory = before.memory) {old : Pointer} (isOld : demand.old = some old)
    (stored : demand.Stored before) {count : UInt64} (length : count.toNat = demand.copied) :
    ∃ copied, after.memcpy (.data block offset) old count = some copied ∧
      demand.Served before ⟨block, offset, demand.bytes⟩ copied := by
  have apart := grants.apart stored (show old ∈ demand.old from isOld)
  rw [← length] at apart
  rcases memcpy_eq apart with ⟨contents, run, inside, outside⟩
  rw [memory] at inside outside
  rw [length] at inside outside
  refine ⟨_, run, grants.with_memory contents, rfl, ?_, ?_⟩
  · intro other isOther k bound
    obtain rfl := Option.some.inj (isOther.symm.trans isOld)
    exact inside k bound
  · intro pointer elsewhere
    apply outside pointer
    intro k bound same
    have front : demand.copied ≤ demand.bytes :=
      Nat.mul_le_mul_right _ (Nat.min_le_right _ _)
    exact elsewhere k (bound.trans_le front) same.symm

theorem growArray_cases {arena : Arena} (wellFormed : arena.WellFormed) (available : Bool)
    {old : Option Pointer} {oldCount newCount elemSize : UInt64}
    (stored : Demand.Stored ⟨old, oldCount.toNat, newCount.toNat, elemSize.toNat⟩ arena) :
    arena.growArray available old oldCount newCount elemSize = some (none, arena) ∨
      newCount.toNat * elemSize.toNat + 7 < 2 ^ 64 ∧ ∃ region after,
        arena.growArray available old oldCount newCount elemSize =
          some (some (.data region.block region.offset), after) ∧
            Demand.Served ⟨old, oldCount.toNat, newCount.toNat, elemSize.toNat⟩ arena region
              after := by
  unfold growArray
  by_cases overflows : elemSize ≠ 0 ∧ newCount > sizeMax / elemSize
  · rw [if_pos overflows]
    exact Or.inl rfl
  · rw [if_neg overflows]
    rw [count_overflows_iff, Nat.not_le] at overflows
    have bytes : (newCount * elemSize).toNat = newCount.toNat * elemSize.toNat := by
      rw [UInt64.toNat_mul]
      exact Nat.mod_eq_of_lt overflows
    rcases alloc_cases wellFormed available (newCount * elemSize) with
      failed | ⟨fits, block, offset, after, done, grants, memory⟩
    · rw [failed]
      exact Or.inl rfl
    · rw [bytes] at fits grants
      rw [done, Option.bind_eq_bind, Option.bind_some]
      dsimp only
      refine Or.inr ⟨fits, ⟨block, offset, newCount.toNat * elemSize.toNat⟩, ?_⟩
      cases old with
      | none =>
          exact ⟨after, rfl, Grants.served ⟨none, _, _, _⟩ grants memory
            (by rintro old ⟨⟩)⟩
      | some old =>
          dsimp only
          split
          · have count : ((if oldCount < newCount then oldCount else newCount) *
                elemSize).toNat = min oldCount.toNat newCount.toNat * elemSize.toNat := by
              have least : (if oldCount < newCount then oldCount else newCount).toNat =
                  min oldCount.toNat newCount.toNat := by
                split
                · rename_i fewer
                  rw [min_eq_left (UInt64.lt_iff_toNat_lt.mp fewer).le]
                · rename_i notFewer
                  rw [min_eq_right (UInt64.le_iff_toNat_le.mp (UInt64.not_lt.mp notFewer))]
              have bound : min oldCount.toNat newCount.toNat * elemSize.toNat ≤
                  newCount.toNat * elemSize.toNat :=
                Nat.mul_le_mul_right _ (Nat.min_le_right _ _)
              rw [UInt64.toNat_mul, least]
              exact Nat.mod_eq_of_lt (bound.trans_lt overflows)
            rcases Grants.served_memcpy ⟨some old, _, _, _⟩ grants memory rfl
              stored count with ⟨copied, run, served⟩
            rw [run]
            exact ⟨copied, rfl, served⟩
          · rename_i none
            have zero : oldCount.toNat = 0 := by
              rw [gt_iff_lt, UInt64.lt_iff_toNat_lt, Nat.not_lt] at none
              exact Nat.le_zero.mp none
            refine ⟨after, rfl, Grants.served ⟨some old, _, _, _⟩ grants memory ?_⟩
            rintro other -
            simp [Demand.copied, zero]

/-- What a call does: it hands back its array, it fails and leaves the arena, or it meets its
demand with a new region. -/
theorem call_cases {arena : Arena} (wellFormed : arena.WellFormed) (available : Bool)
    {call : ArenaCall} (doubles : call.Doubles)
    (stored : ∀ demand ∈ call.demand, demand.Stored arena) :
    (call.demand = none ∧ ∃ items count capacity elemSize,
      call = .growOne items count capacity elemSize ∧
        arena.call available call = some (items, arena)) ∨
    ∃ demand, call.demand = some demand ∧
      (arena.call available call = some (none, arena) ∨
        demand.bytes + 7 < 2 ^ 64 ∧ ∃ region after,
          arena.call available call =
            some (some (.data region.block region.offset), after) ∧
              demand.Served arena region after) := by
  cases call with
  | alloc size =>
      refine Or.inr ⟨_, rfl, ?_⟩
      rcases alloc_cases wellFormed available size with
        failed | ⟨fits, block, offset, after, done, grants, memory⟩
      · exact Or.inl failed
      · have bytes : (Demand.mk none 0 size.toNat 1).bytes = size.toNat := Nat.mul_one _
        rw [← bytes] at grants fits
        exact Or.inr ⟨fits, ⟨block, offset, _⟩, after, done,
          Grants.served _ grants memory (by rintro old ⟨⟩)⟩
  | growArray old oldCount newCount elemSize =>
      exact Or.inr ⟨_, rfl, growArray_cases wellFormed available (stored _ rfl)⟩
  | growOne items count capacity elemSize =>
      by_cases room : count < capacity
      · refine Or.inl ⟨if_pos room, items, count, capacity, elemSize, rfl, ?_⟩
        rw [Arena.call, growOne, if_pos room]
        rfl
      · have demand : (ArenaCall.growOne items count capacity elemSize).demand =
            some ⟨items, count.toNat, (newCapacity capacity).toNat, elemSize.toNat⟩ := by
          rw [toNat_newCapacity (doubles (UInt64.not_lt.mp room))]
          exact if_neg room
        refine Or.inr ⟨_, demand, ?_⟩
        rw [Arena.call, growOne, if_neg room]
        rcases growArray_cases wellFormed available (stored _ demand) with
          failed | ⟨fits, region, after, done, served⟩
        · rw [failed]
          exact Or.inl rfl
        · rw [done]
          exact Or.inr ⟨fits, region, after, rfl, served⟩

end Arena

/-! ## Runs -/

/-- A call and what it returned. -/
structure ArenaEvent where
  call : ArenaCall
  result : Option Pointer
  deriving DecidableEq, Repr

/-- The region that a call has allocated. -/
def ArenaEvent.region (event : ArenaEvent) : Option Region :=
  match event.call.demand, event.result with
  | some demand, some (.data block offset) => some ⟨block, offset, demand.bytes⟩
  | _, _ => none

/-- The elements to copy are in foreign memory or in an array that the arena has returned. -/
def Demand.Owned (demand : Demand) (events : List ArenaEvent) : Prop :=
  ∀ old ∈ demand.old, 0 < demand.copied →
    (∃ address, old = .foreign address) ∨
      ∃ block offset, old = .data block offset ∧
        ∃ region ∈ events.filterMap ArenaEvent.region,
          Region.Within ⟨block, offset, demand.copied⟩ region

/-- What a caller has to ensure: its arrays are arrays, and a capacity that it has to double
has a double. -/
structure ArenaCall.Admissible (call : ArenaCall) (events : List ArenaEvent) : Prop where
  doubles : call.Doubles
  owned : ∀ demand ∈ call.demand, demand.Owned events

/-- The calls on an arena since it was initialised, in their order, with whatever the program
writes to memory in between. -/
inductive ArenaRun (defaultChunkSize : UInt64) : List ArenaEvent → Arena → Prop
  | init (memory : Pointer → UInt8) :
      ArenaRun defaultChunkSize [] (arenaInit defaultChunkSize memory)
  | write {events : List ArenaEvent} {arena : Arena}
      (run : ArenaRun defaultChunkSize events arena) (memory : Pointer → UInt8) :
      ArenaRun defaultChunkSize events { arena with memory := memory }
  | call {events : List ArenaEvent} {arena after : Arena} {available : Bool}
      {call : ArenaCall} {result : Option Pointer}
      (run : ArenaRun defaultChunkSize events arena) (admissible : call.Admissible events)
      (returns : arena.call available call = some (result, after)) :
      ArenaRun defaultChunkSize (events ++ [⟨call, result⟩]) after

/-- The invariant of a run: what was returned is handed out, and no cell was returned
twice. -/
structure Arena.Granted (arena : Arena) (events : List ArenaEvent) : Prop where
  wellFormed : arena.WellFormed
  inside : ∀ event ∈ events, ∀ demand ∈ event.call.demand, ∀ pointer ∈ event.result,
    ∃ block offset chunk, pointer = .data block offset ∧ arena.chunks[block]? = some chunk ∧
      8 ∣ offset ∧ offset + demand.bytes ≤ chunk.used.toNat
  disjoint : (events.filterMap ArenaEvent.region).Pairwise Region.Disjoint

namespace Arena.Granted

theorem of_mem_region {arena : Arena} {events : List ArenaEvent}
    (granted : arena.Granted events) {region : Region}
    (inRegions : region ∈ events.filterMap ArenaEvent.region) :
    ∃ chunk, arena.chunks[region.block]? = some chunk ∧
      region.offset + region.size ≤ chunk.used.toNat := by
  rcases List.mem_filterMap.mp inRegions with ⟨event, inEvents, isRegion⟩
  unfold ArenaEvent.region at isRegion
  split at isRegion
  · rename_i demand block offset isDemand isResult
    obtain rfl := Option.some.inj isRegion
    rcases granted.inside event inEvents demand isDemand _ isResult with
      ⟨block', offset', chunk, same, found, -, below⟩
    rcases Pointer.data.inj same with ⟨rfl, rfl⟩
    exact ⟨chunk, found, below⟩
  · cases isRegion

theorem stored {arena : Arena} {events : List ArenaEvent} (granted : arena.Granted events)
    {demand : Demand} (owned : demand.Owned events) : demand.Stored arena := by
  intro old isOld some
  rcases owned old isOld some with foreign | ⟨block, offset, rfl, region, inRegions, within⟩
  · exact Or.inl foreign
  · rcases granted.of_mem_region inRegions with ⟨chunk, found, below⟩
    rcases within with ⟨rfl, -, last⟩
    exact Or.inr ⟨_, offset, chunk, rfl, found, last.trans below⟩

theorem with_memory {arena : Arena} {events : List ArenaEvent}
    (granted : arena.Granted events) (memory : Pointer → UInt8) :
    Arena.Granted { arena with memory := memory } events where
  wellFormed :=
    ⟨granted.wellFormed.path, granted.wellFormed.current, granted.wellFormed.sound⟩
  inside := granted.inside
  disjoint := granted.disjoint

/-- A call that allocates nothing. -/
theorem append {arena : Arena} {events : List ArenaEvent} (granted : arena.Granted events)
    {event : ArenaEvent} (nothing : event.call.demand = none ∨ event.result = none) :
    arena.Granted (events ++ [event]) where
  wellFormed := granted.wellFormed
  inside := by
    intro other inEvents demand isDemand pointer isResult
    rcases List.mem_append.mp inEvents with inEvents | last
    · exact granted.inside other inEvents demand isDemand pointer isResult
    · obtain rfl := List.mem_singleton.mp last
      rcases nothing with noDemand | noResult
      · rw [noDemand] at isDemand
        cases isDemand
      · rw [noResult] at isResult
        cases isResult
  disjoint := by
    have region : event.region = none := by
      unfold ArenaEvent.region
      rcases nothing with noDemand | noResult
      · rw [noDemand]
      · rw [noResult]
        split <;> simp_all
    rw [List.filterMap_append, List.filterMap_cons_none region, List.filterMap_nil,
      List.append_nil]
    exact granted.disjoint

/-- A call that allocates a region. -/
theorem served {arena after : Arena} {events : List ArenaEvent}
    (granted : arena.Granted events) {call : ArenaCall} {demand : Demand}
    (isDemand : call.demand = some demand) {region : Region}
    (served : demand.Served arena region after) :
    after.Granted (events ++ [⟨call, some (.data region.block region.offset)⟩]) where
  wellFormed := served.grants.wellFormed
  inside := by
    intro other inEvents wanted isWanted pointer isResult
    rcases List.mem_append.mp inEvents with inEvents | last
    · rcases granted.inside other inEvents wanted isWanted pointer isResult with
        ⟨block, offset, chunk, rfl, found, aligned, below⟩
      rcases served.grants.keeps block chunk found with ⟨later, foundLater, -, used⟩
      exact ⟨block, offset, later, rfl, foundLater, aligned,
        below.trans (UInt64.le_iff_toNat_le.mp used)⟩
    · obtain rfl := List.mem_singleton.mp last
      obtain rfl := Option.some.inj (isDemand.symm.trans isWanted)
      obtain rfl := Option.some.inj isResult
      rcases served.grants.inside with ⟨chunk, found, below⟩
      rw [served.size] at below
      exact ⟨region.block, region.offset, chunk, rfl, found, served.grants.aligned, below⟩
  disjoint := by
    have new : ArenaEvent.region ⟨call, some (.data region.block region.offset)⟩ =
        some region := by
      simp only [ArenaEvent.region, isDemand, ← served.size]
    rw [List.filterMap_append, List.filterMap_cons_some new, List.filterMap_nil,
      List.pairwise_append]
    refine ⟨granted.disjoint, List.pairwise_singleton _ _, fun other inRegions last isLast => ?_⟩
    obtain rfl := List.mem_singleton.mp isLast
    rcases granted.of_mem_region inRegions with ⟨chunk, found, below⟩
    by_cases same : other.block = last.block
    · have fresh := served.grants.fresh chunk (same ▸ found)
      exact Or.inr (Or.inl (below.trans fresh))
    · exact Or.inl same

end Arena.Granted

theorem ArenaRun.granted {defaultChunkSize : UInt64} {events : List ArenaEvent}
    {arena : Arena} (run : ArenaRun defaultChunkSize events arena) :
    arena.Granted events := by
  induction run with
  | init memory =>
      constructor
      · exact Arena.wellFormed_arenaInit defaultChunkSize memory
      · rintro event ⟨⟩
      · exact List.Pairwise.nil
  | write run memory inductionHypothesis => exact inductionHypothesis.with_memory memory
  | @call events arena after available call result run admissible returns granted =>
      have stored : ∀ demand ∈ call.demand, demand.Stored arena :=
        fun demand isDemand => granted.stored (admissible.owned demand isDemand)
      rcases Arena.call_cases granted.wellFormed available admissible.doubles stored with
        ⟨noDemand, items, _, _, _, -, kept⟩ |
          ⟨demand, isDemand, failed | ⟨-, region, later, done, served⟩⟩
      · obtain ⟨rfl, rfl⟩ := Prod.mk.inj (Option.some.inj (returns.symm.trans kept))
        exact granted.append (Or.inl noDemand)
      · obtain ⟨rfl, rfl⟩ := Prod.mk.inj (Option.some.inj (returns.symm.trans failed))
        exact granted.append (Or.inr rfl)
      · obtain ⟨rfl, rfl⟩ := Prod.mk.inj (Option.some.inj (returns.symm.trans done))
        exact granted.served isDemand served

/-- No call writes to an array that was allocated before it. -/
theorem ArenaRun.contents {defaultChunkSize : UInt64} {events : List ArenaEvent}
    {arena after : Arena} (run : ArenaRun defaultChunkSize events arena) {available : Bool}
    {call : ArenaCall} (admissible : call.Admissible events) {result : Option Pointer}
    (returns : arena.call available call = some (result, after)) {region : Region}
    (inRegions : region ∈ events.filterMap ArenaEvent.region) {k : Nat}
    (inside : k < region.size) :
    after.memory (.data region.block (region.offset + k)) =
      arena.memory (.data region.block (region.offset + k)) := by
  have granted := run.granted
  have stored : ∀ demand ∈ call.demand, demand.Stored arena :=
    fun demand isDemand => granted.stored (admissible.owned demand isDemand)
  rcases Arena.call_cases granted.wellFormed available admissible.doubles stored with
    ⟨-, items, _, _, _, -, kept⟩ | ⟨demand, -, failed | ⟨-, new, later, done, served⟩⟩
  · obtain ⟨-, rfl⟩ := Prod.mk.inj (Option.some.inj (returns.symm.trans kept))
    rfl
  · obtain ⟨-, rfl⟩ := Prod.mk.inj (Option.some.inj (returns.symm.trans failed))
    rfl
  · obtain ⟨-, rfl⟩ := Prod.mk.inj (Option.some.inj (returns.symm.trans done))
    apply served.others
    rintro j bound same
    rcases granted.of_mem_region inRegions with ⟨chunk, found, below⟩
    rcases Pointer.data.inj same with ⟨block, offset⟩
    have fresh := served.grants.fresh chunk (block ▸ found)
    omega

/-- In every run, the arrays that were allocated are aligned, lie inside the data of a chunk
each and do not meet; no chunk is filled beyond its size, and `first` leads through each of
them once.  The next call has a behaviour: with room left it hands back its array, with a byte
count that overflows it fails, a call that fails leaves the arena as it was, and a new array
begins with the elements of the old one. -/
theorem arenaRun_allocations {defaultChunkSize : UInt64} {events : List ArenaEvent}
    {arena : Arena} (run : ArenaRun defaultChunkSize events arena) :
    (∀ event ∈ events, ∀ demand ∈ event.call.demand, ∀ pointer ∈ event.result,
      ∃ block offset chunk, pointer = .data block offset ∧ 8 ∣ offset ∧
        arena.chunks[block]? = some chunk ∧ offset + demand.bytes ≤ chunk.size.toNat) ∧
    (events.filterMap ArenaEvent.region).Pairwise Region.Disjoint ∧
    (∀ chunk ∈ arena.chunks, chunk.used ≤ chunk.size) ∧
    (∃ path, Path arena.links arena.first path ∧ path.Nodup ∧
      ∀ chunk, chunk ∈ path ↔ chunk < arena.chunks.length) ∧
    ∀ (available : Bool) (call : ArenaCall), call.Admissible events →
      ∃ result after, arena.call available call = some (result, after) ∧
        (call.demand = none → ∃ items count capacity elemSize,
          call = .growOne items count capacity elemSize ∧ result = items ∧ after = arena) ∧
        ∀ demand ∈ call.demand,
          (2 ^ 64 ≤ demand.bytes + 7 → result = none) ∧
          (result = none → after = arena) ∧
          ∀ pointer ∈ result, ∀ old ∈ demand.old, ∀ k < demand.copied,
            after.memory (pointer.add k) = arena.memory (old.add k) := by
  have granted := run.granted
  have used (index : Nat) (chunk : ArenaChunk) (found : arena.chunks[index]? = some chunk) :
      chunk.used.toNat ≤ chunk.size.toNat :=
    UInt64.le_iff_toNat_le.mp (granted.wellFormed.sound index chunk found).inside
  refine ⟨?_, granted.disjoint, ?_, ?_, ?_⟩
  · intro event inEvents demand isDemand pointer isResult
    rcases granted.inside event inEvents demand isDemand pointer isResult with
      ⟨block, offset, chunk, same, found, aligned, below⟩
    exact ⟨block, offset, chunk, same, aligned, found, below.trans (used block chunk found)⟩
  · intro chunk inChunks
    rcases List.mem_iff_getElem?.mp inChunks with ⟨index, found⟩
    exact (granted.wellFormed.sound index chunk found).inside
  · exact ⟨_, granted.wellFormed.path, List.nodup_range, fun chunk => List.mem_range⟩
  · intro available call admissible
    have stored : ∀ demand ∈ call.demand, demand.Stored arena :=
      fun demand isDemand => granted.stored (admissible.owned demand isDemand)
    rcases Arena.call_cases granted.wellFormed available admissible.doubles stored with
      ⟨noDemand, items, count, capacity, elemSize, isGrowOne, kept⟩ |
        ⟨demand, isDemand, failed | ⟨fits, region, later, done, served⟩⟩
    · refine ⟨items, arena, kept, fun _ => ⟨_, _, _, _, isGrowOne, rfl, rfl⟩, ?_⟩
      intro demand isDemand
      rw [noDemand] at isDemand
      cases isDemand
    · refine ⟨none, arena, failed, ?_, ?_⟩
      · intro noDemand
        rw [isDemand] at noDemand
        cases noDemand
      · exact fun demand _ => ⟨fun _ => rfl, fun _ => rfl, by rintro pointer ⟨⟩⟩
    · refine ⟨_, later, done, ?_, ?_⟩
      · intro noDemand
        rw [isDemand] at noDemand
        cases noDemand
      · intro other isOther
        obtain rfl := Option.some.inj (isDemand.symm.trans isOther)
        refine ⟨fun large => absurd fits (Nat.not_lt.mpr large), by rintro ⟨⟩, ?_⟩
        rintro pointer isPointer old isOld k inside
        obtain rfl := Option.some.inj isPointer
        exact served.copied old isOld k inside

/-- Five bytes, and an array of forty that begins with them and has a chunk of its own. -/
theorem arenaRun_allocations_grown :
    ∃ arena, ArenaRun 32
        [⟨.alloc 5, some (.data 0 0)⟩,
          ⟨.growArray (some (.data 0 0)) 5 40 1, some (.data 1 0)⟩] arena ∧
      (List.filterMap ArenaEvent.region
        [⟨.alloc 5, some (.data 0 0)⟩,
          ⟨.growArray (some (.data 0 0)) 5 40 1, some (.data 1 0)⟩]).Pairwise
            Region.Disjoint ∧
      ∃ path, Path arena.links arena.first path ∧ path.Nodup ∧
        ∀ chunk, chunk ∈ path ↔ chunk < arena.chunks.length := by
  have allocated : ArenaRun 32 [⟨.alloc 5, some (.data 0 0)⟩] _ :=
    .call (.init fun _ => 0) ⟨trivial, by rintro demand ⟨⟩ old ⟨⟩⟩
      (show Arena.call _ true _ = _ from rfl)
  have admissible : ArenaCall.Admissible (.growArray (some (.data 0 0)) 5 40 1)
      [⟨.alloc 5, some (.data 0 0)⟩] := by
    constructor
    · trivial
    · rintro demand ⟨⟩ old ⟨⟩ -
      exact Or.inr ⟨0, 0, rfl, ⟨0, 0, 5⟩, by decide, rfl, le_rfl, by decide⟩
  have grown : ArenaRun 32 [⟨.alloc 5, some (.data 0 0)⟩,
      ⟨.growArray (some (.data 0 0)) 5 40 1, some (.data 1 0)⟩] _ :=
    .call allocated admissible (show Arena.call _ true _ = _ from rfl)
  have allocations := arenaRun_allocations grown
  exact ⟨_, grown, allocations.2.1, allocations.2.2.2.1⟩

/-- An array with room is handed back, so that two results are the same pointer; and a capacity
of `2 ^ 63` doubles to zero, so that a byte count that overflows does not fail. -/
theorem arena_results_shared :
    (∃ arena, ArenaRun 32
      [⟨.growOne none 0 0 8, some (.data 0 0)⟩,
        ⟨.growOne (some (.data 0 0)) 1 8 8, some (.data 0 0)⟩] arena) ∧
    ((arenaInit 32 fun _ => 0).growOne true none 9223372036854775808 9223372036854775808
      8).map (fun growth => (growth.items, growth.capacity)) = some (some (.data 0 0), 0) := by
  have first : ArenaRun 32 [⟨.growOne none 0 0 8, some (.data 0 0)⟩] _ :=
    .call (.init fun _ => 0) ⟨fun _ => by decide, by rintro demand ⟨⟩ old ⟨⟩⟩
      (show Arena.call _ true _ = _ from rfl)
  have second : ArenaRun 32 [⟨.growOne none 0 0 8, some (.data 0 0)⟩,
      ⟨.growOne (some (.data 0 0)) 1 8 8, some (.data 0 0)⟩] _ :=
    .call first ⟨fun full => absurd full (by decide), by rintro demand ⟨⟩⟩
      (show Arena.call _ true _ = _ from rfl)
  exact ⟨⟨_, second⟩, by rfl⟩

end Sulfur
