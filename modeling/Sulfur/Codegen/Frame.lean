import Sulfur.Codegen.Stack

/-!
# Frames

The slots of a function fill its frame from the frame pointer downwards.  A temporary is
registered under a name that is printed into one buffer, and looked up under a name that is
printed into a larger one.
-/

namespace Sulfur.Codegen

open Ir

/-- `snprintf` of a text into a buffer: the text is cut so that the NUL fits. -/
def snprintf (size : Nat) (text : String) : String :=
  String.ofList (text.toList.take (size - 1))

/-- `k_temporary_name_size`. -/
def temporaryNameSize : Nat :=
  16

/-- The size of `temp_name` in `format_operand`. -/
def operandNameSize : Nat :=
  32

/-- `sf_stack_register_operand`, with the buffer that it prints into. -/
def StackMap.registerPrinted (map : StackMap) : Operand → StackMap
  | .variable type name => map.addEntry name type
  | .temporary type id =>
      map.addEntry (snprintf temporaryNameSize (temporaryName id)) type
  | _ => map

/-- `sf_stack_populate`, with the buffer that it prints into. -/
def populatePrinted (parameters : List Parameter) (operations : List Operation) : StackMap :=
  (registeredOperands parameters operations).foldl StackMap.registerPrinted {}

/-- The name under which `format_operand` looks for the slot of an operand. -/
def printedName : Operand → Option String
  | .variable _ name => some name
  | .temporary _ id => some (snprintf operandNameSize (temporaryName id))
  | _ => none

/-- The numbers of temporaries have fewer than 15 digits. -/
def ShortTemporaries (operands : List Operand) : Prop :=
  ∀ type id, Operand.temporary type id ∈ operands → id < 10 ^ 14

/-- A short name fits both buffers. -/
theorem snprintf_temporaryName {size id : Nat} (fits : temporaryNameSize ≤ size)
    (short : id < 10 ^ 14) : snprintf size (temporaryName id) = temporaryName id := by
  have digits : id.repr.length ≤ 14 := (Nat.length_repr_le_iff (by decide)).mpr short
  have length : (temporaryName id).toList.length ≤ 15 := by
    rw [temporaryName, String.length_toList, String.length_append, Nat.toString_eq_repr]
    have letter : "t".length = 1 := rfl
    omega
  unfold snprintf
  rw [List.take_of_length_le (by unfold temporaryNameSize at fits; omega),
    String.ofList_toList]

/-- With short names both buffers hold the whole name. -/
theorem populatePrinted_eq {parameters : List Parameter} {operations : List Operation}
    (short : ShortTemporaries (registeredOperands parameters operations)) :
    populatePrinted parameters operations = stackPopulate parameters operations := by
  apply List.foldl_ext
  intro map operand listed
  cases operand with
  | temporary type id =>
      change map.addEntry (snprintf temporaryNameSize (temporaryName id)) type = _
      rw [snprintf_temporaryName le_rfl (short type id listed)]
      rfl
  | none | immediate | label | function | «variable» => rfl

theorem printedName_eq {operands : List Operand} (short : ShortTemporaries operands)
    {operand : Operand} (listed : operand ∈ operands) :
    printedName operand = StackMap.slotName operand := by
  cases operand with
  | temporary type id =>
      change some (snprintf operandNameSize (temporaryName id)) = _
      rw [snprintf_temporaryName (by decide) (short type id listed)]
      rfl
  | none | immediate | label | function | «variable» => rfl

/-! ## Alignment -/

/-- The offsets are multiples of the widths. -/
def StackMap.Aligned (map : StackMap) : Prop :=
  ∀ entry ∈ map.entries, (entry.type.widthBytes : Int) ∣ entry.offset

theorem dvd_nextAlignedOffset (current : Int) (size : Nat) :
    (size : Int) ∣ nextAlignedOffset current size := by
  unfold nextAlignedOffset
  rw [Int.negOfNat_eq, Int.dvd_neg, Int.ofNat_eq_natCast]
  exact Int.natCast_dvd_natCast.mpr (Nat.dvd_mul_left _ _)

theorem StackMap.Aligned.addEntry {map : StackMap} (aligned : map.Aligned) (name : String)
    (type : ValueType) : (map.addEntry name type).Aligned := by
  unfold StackMap.addEntry
  by_cases empty : type.widthBytes = 0
  · rwa [if_pos empty]
  rw [if_neg empty]
  by_cases listed : (map.lookupEntry name).isSome
  · rwa [if_pos listed]
  rw [if_neg listed]
  unfold StackMap.Aligned
  simp only [List.forall_mem_append, List.forall_mem_singleton]
  constructor
  · exact aligned
  · exact dvd_nextAlignedOffset _ _

theorem StackMap.Aligned.registerOperand {map : StackMap} (aligned : map.Aligned)
    (operand : Operand) : (map.registerOperand operand).Aligned := by
  cases operand with
  | temporary type id => exact aligned.addEntry _ _
  | «variable» type name => exact aligned.addEntry _ _
  | none | immediate | label | function => exact aligned

theorem stackPopulate_aligned (parameters : List Parameter) (operations : List Operation) :
    (stackPopulate parameters operations).Aligned := by
  have run (operands : List Operand) (map : StackMap) (aligned : map.Aligned) :
      (operands.foldl StackMap.registerOperand map).Aligned := by
    induction operands generalizing map with
    | nil => exact aligned
    | cons operand rest inductionHypothesis =>
        exact inductionHypothesis _ (aligned.registerOperand operand)
  exact run _ {} nofun

/-! ## The frame -/

/-- No slot is deeper than the deepest one. -/
theorem le_deepest {entries : List StackEntry} {entry : StackEntry} (listed : entry ∈ entries)
    (size : Nat) :
    (-entry.offset).toNat ≤
      entries.foldl (fun size entry => max size (-entry.offset).toNat) size := by
  have grows (entries : List StackEntry) (size : Nat) :
      size ≤ entries.foldl (fun size entry => max size (-entry.offset).toNat) size := by
    induction entries generalizing size with
    | nil => exact le_rfl
    | cons first rest inductionHypothesis =>
        exact (Nat.le_max_left _ _).trans (inductionHypothesis _)
  induction entries generalizing size with
  | nil => cases listed
  | cons first rest inductionHypothesis =>
      rcases List.mem_cons.mp listed with rfl | inRest
      · exact (Nat.le_max_right _ _).trans (grows rest _)
      · exact inductionHypothesis inRest _

theorem offset_inFrame {map : StackMap} {entry : StackEntry} (listed : entry ∈ map.entries) :
    -(frameSize map : Int) ≤ entry.offset := by
  have deep := le_deepest listed 0
  unfold frameSize
  dsimp only
  omega

/-- The bytes of two slots are disjoint. -/
def StackEntry.Apart (first second : StackEntry) : Prop :=
  first.offset + first.type.widthBytes ≤ second.offset ∨
    second.offset + second.type.widthBytes ≤ first.offset

/-- What the slots of a function have to meet. -/
structure FrameLaidOut (operands : List Operand) (map : StackMap) : Prop where
  slots : ∀ operand ∈ operands, operand.inMemory →
    ∃ name ∈ printedName operand, (map.lookupEntry name).isSome
  apart : ∀ first ∈ map.entries, ∀ second ∈ map.entries, first.name ≠ second.name →
    first.Apart second
  inFrame : ∀ entry ∈ map.entries,
    -(frameSize map : Int) ≤ entry.offset ∧ entry.offset + entry.type.widthBytes ≤ 0
  aligned : ∀ entry ∈ map.entries, (entry.type.widthBytes : Int) ∣ entry.offset
  frame : 16 ∣ frameSize map

/-- The slots of a function lie in its frame, aligned, and none overlaps another one. -/
theorem frameLaidOut {parameters : List Parameter} {operations : List Operation}
    (typed : ∀ operand ∈ registeredOperands parameters operations,
      operand.inMemory → operand.valueType ≠ .void)
    (short : ShortTemporaries (registeredOperands parameters operations)) :
    FrameLaidOut (registeredOperands parameters operations)
      (populatePrinted parameters operations) := by
  rw [populatePrinted_eq short]
  have descending := stackPopulate_descending parameters operations
  constructor
  · intro operand listed inMemory
    have sized : operand.valueType.widthBytes ≠ 0 := by
      have notVoid := typed operand listed inMemory
      cases type : operand.valueType with
      | void => exact absurd type notVoid
      | _ => decide
    rw [printedName_eq short listed]
    cases operand with
    | temporary type id =>
        exact ⟨_, rfl, StackMap.isSome_lookupEntry_foldl rfl sized listed {}⟩
    | «variable» type name =>
        exact ⟨_, rfl, StackMap.isSome_lookupEntry_foldl rfl sized listed {}⟩
    | none | immediate | label | function => cases inMemory
  · intro first isFirst second isSecond differ
    have symmetric : Std.Symm StackEntry.Apart := ⟨fun _ _ => Or.symm⟩
    have ordered : (stackPopulate parameters operations).entries.Pairwise StackEntry.Apart :=
      descending.apart.imp Or.inr
    apply ordered.forall isFirst isSecond
    rintro rfl
    exact differ rfl
  · intro entry isEntry
    exact ⟨offset_inFrame isEntry, descending.inFrame entry isEntry⟩
  · exact stackPopulate_aligned parameters operations
  · exact Nat.dvd_mul_left _ _

theorem frameLaidOut_mixed :
    FrameLaidOut
      (registeredOperands [{ type := .u8, name := "n@0" }]
        [⟨.cast, .temporary .i64 0, .variable .u8 "n@0", .none⟩])
      (populatePrinted [{ type := .u8, name := "n@0" }]
        [⟨.cast, .temporary .i64 0, .variable .u8 "n@0", .none⟩]) := by
  apply frameLaidOut
  · decide
  · intro type id listed
    simp only [registeredOperands, StackMap.registered, List.map_cons, List.map_nil,
      List.flatMap_cons, List.flatMap_nil, reduceCtorEq, if_false, List.cons_append,
      List.nil_append, List.append_nil, List.mem_cons, List.not_mem_nil, or_false, false_or,
      Operand.temporary.injEq] at listed
    rw [listed.2]
    decide

/-- An `ASSIGN` has two operands; a third one would get no slot. -/
theorem populatePrinted_assign :
    let operation : Operation :=
      ⟨.assign, .temporary .i64 0, .immediate .i64 "1", .variable .i64 "x@0"⟩
    (∀ operand ∈ [operation.operand1, operation.operand2, operation.operand3],
        operand.inMemory → operand.valueType = .i64) ∧
      operation.operand3.inMemory ∧
      ¬∃ name ∈ printedName operation.operand3,
        ((populatePrinted [] [operation]).lookupEntry name).isSome := by
  decide

/-! ## Types -/

/-- The slots have the types of operands with their names. -/
def StackMap.Typed (operands : List Operand) (map : StackMap) : Prop :=
  ∀ entry ∈ map.entries, ∃ operand ∈ operands,
    slotName operand = some entry.name ∧ operand.valueType = entry.type

theorem StackMap.Typed.addEntry {operands : List Operand} {map : StackMap}
    (typed : map.Typed operands) {operand : Operand} (listed : operand ∈ operands)
    {name : String} (named : slotName operand = some name) :
    (map.addEntry name operand.valueType).Typed operands := by
  unfold StackMap.addEntry
  by_cases empty : operand.valueType.widthBytes = 0
  · rwa [if_pos empty]
  rw [if_neg empty]
  by_cases known : (map.lookupEntry name).isSome
  · rwa [if_pos known]
  rw [if_neg known]
  unfold StackMap.Typed
  simp only [List.forall_mem_append, List.forall_mem_singleton]
  constructor
  · exact typed
  · exact ⟨operand, listed, named, rfl⟩

theorem stackPopulate_typed (parameters : List Parameter) (operations : List Operation) :
    (stackPopulate parameters operations).Typed (registeredOperands parameters operations) := by
  have run (operands rest : List Operand) (sub : rest ⊆ operands) (map : StackMap)
      (typed : map.Typed operands) :
      (rest.foldl StackMap.registerOperand map).Typed operands := by
    induction rest generalizing map with
    | nil => exact typed
    | cons operand rest inductionHypothesis =>
        rcases List.cons_subset.mp sub with ⟨listed, subRest⟩
        apply inductionHypothesis subRest
        cases operand with
        | temporary type id => exact typed.addEntry listed rfl
        | «variable» type name => exact typed.addEntry listed rfl
        | none | immediate | label | function => exact typed
  exact run _ _ (List.Subset.refl _) {} nofun

/-- When the operands of one name have one type, the slot of an operand is as wide as the
operand. -/
theorem type_of_lookupEntry {parameters : List Parameter} {operations : List Operation}
    (single : ∀ first ∈ registeredOperands parameters operations,
      ∀ second ∈ registeredOperands parameters operations, (StackMap.slotName first).isSome →
        StackMap.slotName first = StackMap.slotName second →
          first.valueType = second.valueType)
    {operand : Operand} (listed : operand ∈ registeredOperands parameters operations)
    {name : String} (named : StackMap.slotName operand = some name) {entry : StackEntry}
    (found : (stackPopulate parameters operations).lookupEntry name = some entry) :
    entry.type = operand.valueType := by
  rcases StackMap.mem_of_lookupEntry found with ⟨isEntry, rfl⟩
  rcases stackPopulate_typed parameters operations entry isEntry with
    ⟨other, isOther, sameName, type⟩
  rw [← type]
  exact single other isOther operand listed (Option.isSome_iff_exists.mpr ⟨_, sameName⟩)
    (sameName.trans named.symm)

end Sulfur.Codegen
