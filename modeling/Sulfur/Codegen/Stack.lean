import Sulfur.Ir.Operation

/-!
# Stack maps

`stack.c`: every variable and temporary of a function has a slot below the frame
pointer, as wide as its type.
-/

namespace Sulfur.Codegen

open Ir

/-- `sf_stack_entry`. -/
structure StackEntry where
  name : String
  offset : Int
  type : ValueType
  deriving DecidableEq, Repr, Inhabited

/-- `sf_stack_map`, with the running `next_offset` of `sf_stack_populate`. -/
structure StackMap where
  entries : List StackEntry := []
  nextOffset : Int := 0
  deriving DecidableEq, Repr, Inhabited

/-- The name of a temporary's slot. -/
def temporaryName (id : Nat) : String :=
  "t" ++ toString id

/-- `next_aligned_offset`; the offsets are not positive. -/
def nextAlignedOffset (current : Int) (size : Nat) : Int :=
  let position := current.natAbs + size
  let aligned := (position + size - 1) / size * size
  Int.negOfNat aligned

namespace StackMap

/-- `sf_stack_lookup_entry`. -/
def lookupEntry (map : StackMap) (name : String) : Option StackEntry :=
  map.entries.find? fun entry => entry.name = name

/-- `sf_stack_lookup`. -/
def lookup (map : StackMap) (name : String) : Int :=
  match map.lookupEntry name with
  | some entry => entry.offset
  | none => 0

/-- `add_entry`. -/
def addEntry (map : StackMap) (name : String) (type : ValueType) : StackMap :=
  if type.widthBytes = 0 then
    map
  else if (map.lookupEntry name).isSome then
    map
  else
    let offset := nextAlignedOffset map.nextOffset type.widthBytes
    { entries := map.entries ++ [⟨name, offset, type⟩]
      nextOffset := offset }

/-- `sf_stack_register_operand`. -/
def registerOperand (map : StackMap) : Operand → StackMap
  | .variable type name => map.addEntry name type
  | .temporary type id => map.addEntry (temporaryName id) type
  | _ => map

/-- The operands that `sf_stack_populate` registers for an operation. -/
def registered (operation : Operation) : List Operand :=
  [operation.operand1, operation.operand2] ++
    if operation.opcode = .assign then [] else [operation.operand3]

end StackMap

/-- `sf_stack_populate`. -/
def stackPopulate (parameters : List Parameter) (operations : List Operation) : StackMap :=
  let operands := parameters.map (fun param => Operand.variable param.type param.name) ++
    operations.flatMap StackMap.registered
  operands.foldl StackMap.registerOperand {}

/-- `frame_size`: the deepest slot, rounded up to a multiple of 16. -/
def frameSize (map : StackMap) : Nat :=
  let deepest := map.entries.foldl
    (fun size entry => max size (-entry.offset).toNat) 0
  (deepest + 15) / 16 * 16

/-! ## The layout of the slots -/

/-- A slot below a slot ends where that one starts, or before. -/
theorem nextAlignedOffset_le {current : Int} (frame : current ≤ 0) {size : Nat}
    (sized : 0 < size) : nextAlignedOffset current size + size ≤ current := by
  unfold nextAlignedOffset
  dsimp only
  have covers : current.natAbs + size ≤
      (current.natAbs + size + size - 1) / size * size := by
    have roundsUp := Nat.lt_div_mul_add (a := current.natAbs + size + size - 1) sized
    omega
  rw [Int.negOfNat_eq, Int.ofNat_eq_natCast]
  omega

namespace StackMap

/-- The slots are below the frame pointer, each below the ones before it, and their
names are different. -/
structure Descending (map : StackMap) : Prop where
  next : map.nextOffset ≤ 0
  above : ∀ entry ∈ map.entries, map.nextOffset ≤ entry.offset
  sized : ∀ entry ∈ map.entries, 0 < entry.type.widthBytes
  inFrame : ∀ entry ∈ map.entries, entry.offset + entry.type.widthBytes ≤ 0
  apart : map.entries.Pairwise fun first second : StackEntry =>
    second.offset + second.type.widthBytes ≤ first.offset
  names : (map.entries.map StackEntry.name).Nodup

theorem Descending.empty : Descending {} :=
  ⟨le_refl _, nofun, nofun, nofun, .nil, .nil⟩

theorem Descending.addEntry {map : StackMap} (descending : map.Descending) (name : String)
    (type : ValueType) : (map.addEntry name type).Descending := by
  unfold StackMap.addEntry
  by_cases empty : type.widthBytes = 0
  · rwa [if_pos empty]
  rw [if_neg empty]
  by_cases listed : (map.lookupEntry name).isSome
  · rwa [if_pos listed]
  rw [if_neg listed]
  have sized : 0 < type.widthBytes := Nat.pos_of_ne_zero empty
  have lower := nextAlignedOffset_le descending.next sized
  have below := descending.next
  constructor
  · dsimp only
    omega
  · simp only [List.forall_mem_append, List.forall_mem_singleton, le_refl, and_true]
    intro entry isEntry
    have above := descending.above entry isEntry
    omega
  · simp only [List.forall_mem_append, List.forall_mem_singleton]
    exact ⟨descending.sized, sized⟩
  · simp only [List.forall_mem_append, List.forall_mem_singleton]
    exact ⟨descending.inFrame, by omega⟩
  · simp only [List.pairwise_append, List.pairwise_singleton, List.mem_singleton, true_and,
      forall_eq]
    exact ⟨descending.apart, fun entry isEntry => lower.trans (descending.above entry isEntry)⟩
  · rw [List.map_append, List.nodup_append]
    refine ⟨descending.names, List.nodup_singleton _, ?_⟩
    simp only [List.map_cons, List.map_nil, List.mem_singleton, List.forall_mem_map]
    rintro entry isEntry _ rfl same
    simp only [Option.not_isSome_iff_eq_none, lookupEntry, List.find?_eq_none] at listed
    simpa [same] using listed entry isEntry

theorem Descending.registerOperand {map : StackMap} (descending : map.Descending)
    (operand : Operand) : (map.registerOperand operand).Descending := by
  cases operand with
  | temporary type id => exact descending.addEntry _ _
  | «variable» type name => exact descending.addEntry _ _
  | none | immediate | label | function => exact descending

theorem Descending.foldl {map : StackMap} (descending : map.Descending)
    (operands : List Operand) : (operands.foldl StackMap.registerOperand map).Descending := by
  induction operands generalizing map with
  | nil => exact descending
  | cons operand rest inductionHypothesis =>
      exact inductionHypothesis (descending.registerOperand operand)

/-! ## The slots of the operands -/

theorem mem_of_lookupEntry {map : StackMap} {name : String} {entry : StackEntry}
    (found : map.lookupEntry name = some entry) :
    entry ∈ map.entries ∧ entry.name = name :=
  ⟨List.mem_of_find?_eq_some found, by simpa using List.find?_some found⟩

/-- A slot stays. -/
theorem lookupEntry_addEntry {map : StackMap} {name : String} {entry : StackEntry}
    (found : map.lookupEntry name = some entry) (other : String) (type : ValueType) :
    (map.addEntry other type).lookupEntry name = some entry := by
  unfold addEntry
  split
  · exact found
  · split
    · exact found
    · unfold lookupEntry at found ⊢
      rw [List.find?_append, found]
      rfl

theorem isSome_lookupEntry_addEntry (map : StackMap) (name : String) {type : ValueType}
    (sized : type.widthBytes ≠ 0) : ((map.addEntry name type).lookupEntry name).isSome := by
  unfold addEntry
  rw [if_neg sized]
  by_cases listed : (map.lookupEntry name).isSome
  · rwa [if_pos listed]
  · rw [if_neg listed]
    simp [lookupEntry, List.find?_append]

/-- The name of the slot of an operand. -/
def slotName : Operand → Option String
  | .variable _ name => some name
  | .temporary _ id => some (temporaryName id)
  | _ => none

theorem lookupEntry_registerOperand {map : StackMap} {name : String} {entry : StackEntry}
    (found : map.lookupEntry name = some entry) (operand : Operand) :
    (map.registerOperand operand).lookupEntry name = some entry := by
  cases operand with
  | temporary type id => exact lookupEntry_addEntry found _ _
  | «variable» type other => exact lookupEntry_addEntry found _ _
  | none | immediate | label | function => exact found

theorem lookupEntry_foldl {map : StackMap} {name : String} {entry : StackEntry}
    (found : map.lookupEntry name = some entry) (operands : List Operand) :
    (operands.foldl registerOperand map).lookupEntry name = some entry := by
  induction operands generalizing map with
  | nil => exact found
  | cons operand rest inductionHypothesis =>
      exact inductionHypothesis (lookupEntry_registerOperand found operand)

/-- Every operand with a width gets a slot. -/
theorem isSome_lookupEntry_foldl {operand : Operand} {name : String}
    (named : slotName operand = some name) (sized : operand.valueType.widthBytes ≠ 0)
    {operands : List Operand} (listed : operand ∈ operands) (map : StackMap) :
    ((operands.foldl registerOperand map).lookupEntry name).isSome := by
  induction operands generalizing map with
  | nil => cases listed
  | cons first rest inductionHypothesis =>
      rcases List.mem_cons.mp listed with rfl | inRest
      · have registered : ((map.registerOperand operand).lookupEntry name).isSome := by
          cases operand with
          | temporary type id =>
              obtain rfl := Option.some.inj named
              exact isSome_lookupEntry_addEntry map _ sized
          | «variable» type other =>
              obtain rfl := Option.some.inj named
              exact isSome_lookupEntry_addEntry map _ sized
          | none | immediate | label | function => cases named
        rcases Option.isSome_iff_exists.mp registered with ⟨entry, found⟩
        rw [List.foldl_cons, lookupEntry_foldl found rest]
        rfl
      · exact inductionHypothesis inRest _

end StackMap

/-- The operands of a function for which slots are made. -/
def registeredOperands (parameters : List Parameter) (operations : List Operation) :
    List Operand :=
  parameters.map (fun param => Operand.variable param.type param.name) ++
    operations.flatMap StackMap.registered

theorem stackPopulate_descending (parameters : List Parameter) (operations : List Operation) :
    (stackPopulate parameters operations).Descending :=
  StackMap.Descending.empty.foldl (registeredOperands parameters operations)

end Sulfur.Codegen
