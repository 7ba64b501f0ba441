import Sulfur.Codegen.Emit
import Sulfur.Ir.Semantics
import Sulfur.Library.Machine

/-!
# The machine under the assembly text

The part of an x86-64 processor that the printed instructions use.  A write to the low
half of a register clears the high half, and a write to a smaller part keeps the rest.
The flags are known after a comparison only, and an instruction that NASM does not
encode, or that faults, has no next state.
-/

namespace Sulfur.Codegen

open Machine Ir

namespace SizePrefix

/-- The number of bits that a size prefix stands for. -/
def bits : SizePrefix → Nat
  | .byte => 8
  | .word => 16
  | .dword => 32
  | .qword => 64

theorem bits_le (size : SizePrefix) : size.bits ≤ 64 := by
  cases size <;> decide

theorem bits_pos (size : SizePrefix) : 0 < size.bits := by
  cases size <;> decide

end SizePrefix

/-! ## Registers -/

/-- The whole registers. -/
inductive Family
  | rax | rcx | rdx | rsi | rdi | r8 | r9 | rbp | rsp
  deriving DecidableEq, Repr

namespace Register

/-- The 64-bit register that a register is part of. -/
def family : Register → Family
  | .rax | .eax | .ax | .al | .ah => .rax
  | .rcx | .ecx | .cx | .cl => .rcx
  | .rdx | .edx | .dx | .dl => .rdx
  | .rsi | .esi | .si | .sil => .rsi
  | .rdi | .edi | .di | .dil => .rdi
  | .r8 | .r8d | .r8w | .r8b => .r8
  | .r9 | .r9d | .r9w | .r9b => .r9
  | .rbp => .rbp
  | .rsp => .rsp

/-- The size of a register. -/
def size : Register → SizePrefix
  | .rax | .rcx | .rdx | .rsi | .rdi | .r8 | .r9 | .rbp | .rsp => .qword
  | .eax | .ecx | .edx | .esi | .edi | .r8d | .r9d => .dword
  | .ax | .cx | .dx | .si | .di | .r8w | .r9w => .word
  | .al | .ah | .cl | .dl | .sil | .dil | .r8b | .r9b => .byte

/-- The lowest bit of the part. -/
def start : Register → Nat
  | .ah => 8
  | _ => 0

theorem fits (reg : Register) : reg.start + reg.size.bits ≤ 64 := by
  cases reg <;> decide

end Register

/-- `al`, `ax`, `eax` or `rax`: the accumulator, the low half of a dividend. -/
def accumulator : SizePrefix → Register
  | .byte => .al
  | .word => .ax
  | .dword => .eax
  | .qword => .rax

/-- The high half of a dividend. -/
def extension : SizePrefix → Register
  | .byte => .ah
  | .word => .dx
  | .dword => .edx
  | .qword => .rdx

@[simp]
theorem size_accumulator (size : SizePrefix) : (accumulator size).size = size := by
  cases size <;> rfl

@[simp]
theorem start_accumulator (size : SizePrefix) : (accumulator size).start = 0 := by
  cases size <;> rfl

@[simp]
theorem size_extension (size : SizePrefix) : (extension size).size = size := by
  cases size <;> rfl

@[simp]
theorem family_accumulator (size : SizePrefix) : (accumulator size).family = .rax := by
  cases size <;> rfl

/-! ## States -/

/-- The registers, the memory and the flags, which may be undefined. -/
structure MachineState where
  registers : Family → BitVec 64
  memory : Memory 64
  flags : Option Flags

namespace MachineState

variable (m : MachineState)

/-- The bits of a part of a register. -/
def read (reg : Register) (width : Nat) : BitVec width :=
  (m.registers reg.family).extractLsb' reg.start width

/-- Write a whole 64-bit register. -/
def setFamily (family : Family) (word : BitVec 64) : MachineState :=
  { m with registers := fun other => if other = family then word else m.registers other }

/-- Write a register.  A 32-bit write clears the upper half, a shorter one keeps the rest. -/
def write {w : Nat} (reg : Register) (word : BitVec w) : MachineState :=
  m.setFamily reg.family
    (if w = 32 then word.setWidth 64
    else insertField (m.registers reg.family) reg.start word)

/-- The address of a slot. -/
def address (offset : Int) : BitVec 64 :=
  m.registers .rbp + BitVec.ofInt 64 offset

/-- Write a word to memory. -/
def setMemory {w : Nat} (address : BitVec 64) (word : BitVec w) : MachineState :=
  { m with memory := m.memory.store address word }

/-- After an instruction that changes the flags otherwise than `cmp`. -/
def forgetFlags : MachineState :=
  { m with flags := none }

end MachineState

/-! ## Operands -/

/-- NASM truncates an immediate to the operand size; outside `mov` a quadword has an
immediate of 32 bits, which the processor extends. -/
def immediateBits (size : SizePrefix) (value : String) : BitVec size.bits :=
  match size with
  | .qword => (BitVec.ofInt 32 (decimal value)).signExtend 64
  | size => BitVec.ofInt size.bits (decimal value)

namespace Argument

/-- The size that an operand names, if it names one. -/
def size : Argument → Option SizePrefix
  | .register reg => some reg.size
  | .memory size _ => some size
  | _ => none

/-- The operand is in memory. -/
def isMemory : Argument → Bool
  | .memory .. => true
  | _ => false

end Argument

namespace MachineState

variable (m : MachineState)

/-- The value of an operand of an instruction of that size. -/
def value (size : SizePrefix) : Argument → Option (BitVec size.bits)
  | .register reg => if reg.size = size then some (m.read reg _) else none
  | .memory own offset =>
      if own = size then some (m.memory.load (m.address offset) _) else none
  | .immediate value => some (immediateBits size value)
  | _ => none

/-- The state after a result is stored. -/
def assign {size : SizePrefix} (dst : Argument) (word : BitVec size.bits) :
    Option MachineState :=
  match dst with
  | .register reg => if reg.size = size then some (m.write reg word) else none
  | .memory own offset =>
      if own = size then some (m.setMemory (m.address offset) word) else none
  | _ => none

/-! ## Instructions -/

/-- `mov`, which takes a quadword immediate into a register. -/
def move (dst src : Argument) : Option MachineState := do
  let size ← dst.size
  if dst.isMemory && src.isMemory then
    none
  else
    match dst, src with
    | .register _, .immediate value => m.assign dst (BitVec.ofInt size.bits (decimal value))
    | _, _ => do
        let word ← m.value size src
        m.assign dst word

/-- `movsx`, `movsxd` and `movzx`. -/
def extend (isSigned : Bool) (dst src : Argument) : Option MachineState := do
  let .register reg := dst | none
  let size ← src.size
  if size.bits < reg.size.bits then do
    let word ← m.value size src
    return m.write reg
      (if isSigned then word.signExtend reg.size.bits else word.setWidth reg.size.bits)
  else
    none

/-- `add`, `sub`, `and`, `or` and `xor`. -/
def binary (op : ∀ w, BitVec w → BitVec w → BitVec w) (dst src : Argument) :
    Option MachineState := do
  let size ← dst.size
  if dst.isMemory && src.isMemory then
    none
  else do
    let x ← m.value size dst
    let y ← m.value size src
    m.forgetFlags.assign dst (op _ x y)

/-- `neg` and `not`. -/
def unary (op : ∀ w, BitVec w → BitVec w) (dst : Argument) : Option MachineState := do
  let size ← dst.size
  let x ← m.value size dst
  m.forgetFlags.assign dst (op _ x)

/-- `imul` with two operands. -/
def multiply (dst src : Argument) : Option MachineState := do
  let .register reg := dst | none
  if reg.size = .byte then none else m.binary (fun _ x y => x * y) dst src

/-- `mul` and `imul` with one operand, a byte. -/
def multiplyByte (isSigned : Bool) (src : Argument) : Option MachineState := do
  let .some .byte := src.size | none
  let y ← m.value .byte src
  let x := m.read .al 8
  let product : BitVec 16 :=
    if isSigned then x.signExtend 16 * y.signExtend 16 else x.setWidth 16 * y.setWidth 16
  return m.forgetFlags.write .ax product

/-- `cbw`, `cwd`, `cdq` and `cqo`: the high half of the dividend gets the sign. -/
def signDividend (size : SizePrefix) : MachineState :=
  m.write (extension size)
    (if (m.read (accumulator size) size.bits).msb then BitVec.allOnes size.bits else 0)

/-- `div` and `idiv`, which fault when the quotient does not fit. -/
def divide (isSigned : Bool) (src : Argument) : Option MachineState := do
  let size ← src.size
  let divisor ← m.value size src
  let dividend := m.read (extension size) size.bits ++ m.read (accumulator size) size.bits
  let (quotient, remainder) : Int × Int :=
    if isSigned then
      (dividend.toInt.tdiv divisor.toInt, dividend.toInt.tmod divisor.toInt)
    else
      (dividend.toNat / divisor.toNat, dividend.toNat % divisor.toNat)
  if divisor ≠ 0 ∧ Word.Format.InRange ⟨isSigned, size.bits⟩ quotient then
    return (m.forgetFlags.write (accumulator size) (BitVec.ofInt size.bits quotient)).write
      (extension size) (BitVec.ofInt size.bits remainder)
  else
    none

/-- `shl`, `sar` and `shr`: the processor takes the count modulo 32, or 64 for a
quadword. -/
def shift (op : ∀ w, BitVec w → Nat → BitVec w) (dst count : Argument) :
    Option MachineState := do
  let size ← dst.size
  let x ← m.value size dst
  let count ← match count with
    | .immediate _ | .register .cl => m.value .byte count
    | _ => none
  let masked := count.toNat % (if size = .qword then 64 else 32)
  m.forgetFlags.assign dst (op _ x masked)

/-- `cmp`. -/
def compare (x y : Argument) : Option MachineState := do
  let size ← x.size
  if x.isMemory && y.isMemory then
    none
  else do
    let first ← m.value size x
    let second ← m.value size y
    return { m with flags := some (Flags.ofSub first second) }

/-- The conditions of the `set` instructions. -/
def condition (flags : Flags) : Mnemonic → Option Bool
  | .sete => some flags.zero
  | .setne => some !flags.zero
  | .setl => some (flags.sign != flags.overflow)
  | .setge => some (flags.sign == flags.overflow)
  | .setle => some (flags.zero || flags.sign != flags.overflow)
  | .setg => some (!flags.zero && flags.sign == flags.overflow)
  | .setb => some flags.carry
  | .setae => some !flags.carry
  | .setbe => some (flags.carry || flags.zero)
  | .seta => some (!flags.carry && !flags.zero)
  | _ => none

/-- The `set` instructions, on a byte register. -/
def set (mnemonic : Mnemonic) (dst : Argument) : Option MachineState := do
  let .some .byte := dst.size | none
  let flags ← m.flags
  let holds ← condition flags mnemonic
  let byte : BitVec SizePrefix.byte.bits := if holds then 1 else 0
  m.assign dst byte

/-- Whether a jump is taken. -/
def jumps : Mnemonic → Option Bool
  | .jmp => some true
  | .je => m.flags.map Flags.zero
  | _ => none

/-- `push` of a whole register. -/
def push (word : BitVec 64) : MachineState :=
  let top := m.registers .rsp - 8
  (m.setFamily .rsp top).setMemory top word

/-- The word on top of the stack. -/
def top : BitVec 64 :=
  m.memory.load (m.registers .rsp) 64

/-- The state without the word on top of the stack. -/
def drop : MachineState :=
  m.setFamily .rsp (m.registers .rsp + 8)

end MachineState

/-- One instruction that does not jump.  What a called function does is a parameter. -/
def Instruction.exec (calls : String → MachineState → Option MachineState) (m : MachineState) :
    Instruction → Option MachineState
  | ⟨.mov, [dst, src]⟩ => m.move dst src
  | ⟨.movsx, [dst, src]⟩ => if src.size = some .dword then none else m.extend true dst src
  | ⟨.movsxd, [dst, src]⟩ => if src.size = some .dword then m.extend true dst src else none
  | ⟨.movzx, [dst, src]⟩ => if src.size = some .dword then none else m.extend false dst src
  | ⟨.add, [dst, src]⟩ => m.binary (fun _ x y => x + y) dst src
  | ⟨.sub, [dst, src]⟩ => m.binary (fun _ x y => x - y) dst src
  | ⟨.and, [dst, src]⟩ => m.binary (fun _ x y => x &&& y) dst src
  | ⟨.or, [dst, src]⟩ => m.binary (fun _ x y => x ||| y) dst src
  | ⟨.xor, [dst, src]⟩ => m.binary (fun _ x y => x ^^^ y) dst src
  | ⟨.neg, [dst]⟩ => m.unary (fun _ x => -x) dst
  | ⟨.not, [dst]⟩ => m.unary (fun _ x => ~~~x) dst
  | ⟨.imul, [dst, src]⟩ => m.multiply dst src
  | ⟨.imul, [src]⟩ => m.multiplyByte true src
  | ⟨.mul, [src]⟩ => m.multiplyByte false src
  | ⟨.cbw, []⟩ => some (m.signDividend .byte)
  | ⟨.cwd, []⟩ => some (m.signDividend .word)
  | ⟨.cdq, []⟩ => some (m.signDividend .dword)
  | ⟨.cqo, []⟩ => some (m.signDividend .qword)
  | ⟨.idiv, [src]⟩ => m.divide true src
  | ⟨.div, [src]⟩ => m.divide false src
  | ⟨.shl, [dst, count]⟩ => m.shift (fun _ x count => x <<< count) dst count
  | ⟨.shr, [dst, count]⟩ => m.shift (fun _ x count => x >>> count) dst count
  | ⟨.sar, [dst, count]⟩ => m.shift (fun _ x count => x.sshiftRight count) dst count
  | ⟨.cmp, [x, y]⟩ => m.compare x y
  | ⟨.push, [.register reg]⟩ =>
      if reg.size = .qword then some (m.push (m.read reg 64)) else none
  | ⟨.pop, [.register reg]⟩ =>
      if reg.size = .qword then some (m.drop.write reg m.top) else none
  | ⟨.call, [.symbol name]⟩ => calls name m
  | ⟨mnemonic, [dst]⟩ => m.set mnemonic dst
  | _ => none

/-- Instructions one after the other. -/
def execItems (calls : String → MachineState → Option MachineState) :
    List Item → MachineState → Option MachineState
  | [], m => some m
  | .instruction instr :: rest, m => (instr.exec calls m).bind (execItems calls rest)
  | .label _ :: rest, m => execItems calls rest m

/-! ## Reading after writing -/

namespace MachineState

variable (m : MachineState) {w v : Nat}

@[simp]
theorem memory_write (reg : Register) (word : BitVec w) :
    (m.write reg word).memory = m.memory := rfl

@[simp]
theorem flags_write (reg : Register) (word : BitVec w) : (m.write reg word).flags = m.flags := rfl

@[simp]
theorem registers_setMemory (address : BitVec 64) (word : BitVec w) :
    (m.setMemory address word).registers = m.registers := rfl

@[simp]
theorem memory_setMemory (address : BitVec 64) (word : BitVec w) :
    (m.setMemory address word).memory = m.memory.store address word := rfl

@[simp]
theorem memory_forgetFlags : m.forgetFlags.memory = m.memory := rfl

@[simp]
theorem registers_forgetFlags : m.forgetFlags.registers = m.registers := rfl

@[simp]
theorem registers_setFamily (family other : Family) (word : BitVec 64) :
    (m.setFamily family word).registers other =
      if other = family then word else m.registers other := rfl

@[simp]
theorem memory_setFamily (family : Family) (word : BitVec 64) :
    (m.setFamily family word).memory = m.memory := rfl

/-- A write to a whole register. -/
theorem write_whole {reg : Register} (start : reg.start = 0) (word : BitVec 64) :
    m.write reg word = m.setFamily reg.family word := by
  rw [write, if_neg (by decide), start, insertField_whole]

/-- A whole register. -/
theorem read_whole {reg : Register} (start : reg.start = 0) :
    m.read reg 64 = m.registers reg.family := by
  rw [read, start, BitVec.extractLsb'_eq_self]

theorem registers_write_of_ne {reg : Register} {family : Family} (differ : family ≠ reg.family)
    (word : BitVec w) : (m.write reg word).registers family = m.registers family :=
  if_neg differ

theorem registers_write_self (reg : Register) (word : BitVec w) :
    (m.write reg word).registers reg.family =
      if w = 32 then word.setWidth 64
      else insertField (m.registers reg.family) reg.start word :=
  if_pos rfl

/-- A part that is read after a part at the same place was written, and is no wider. -/
theorem read_write (reg other : Register) (family : other.family = reg.family)
    (start : other.start = reg.start) (low : w = 32 → reg.start = 0)
    (fits : reg.start + w ≤ 64) (narrower : v ≤ w) (word : BitVec w) :
    (m.write reg word).read other v = word.setWidth v := by
  rw [read, family, start, registers_write_self]
  by_cases half : w = 32
  · rw [if_pos half, low half]
    apply BitVec.eq_of_getLsbD_eq
    intro bit inside
    have inWord : bit < 64 := by omega
    simp [inside, inWord]
  · rw [if_neg half, extractLsb'_insertField _ _ fits narrower]

/-- A write to the low half of a register clears the high half. -/
theorem read_write_half (reg other : Register) (family : other.family = reg.family)
    (start : other.start = 0) (word : BitVec 32) :
    (m.write reg word).read other 64 = word.setWidth 64 := by
  rw [read, family, start, registers_write_self, if_pos rfl, BitVec.extractLsb'_eq_self]

theorem read_write_of_ne {reg other : Register} (family : other.family ≠ reg.family)
    (word : BitVec w) : (m.write reg word).read other v = m.read other v := by
  rw [read, read, registers_write_of_ne m family]

/-- The accumulator after a write to the accumulator that is no narrower. -/
theorem read_accumulator (size other : SizePrefix) (narrower : other.bits ≤ w) (fits : w ≤ 64)
    (word : BitVec w) :
    (m.write (accumulator size) word).read (accumulator other) other.bits =
      word.setWidth other.bits := by
  apply read_write
  · rw [family_accumulator, family_accumulator]
  · rw [start_accumulator, start_accumulator]
  · exact fun _ => start_accumulator size
  · rwa [start_accumulator, Nat.zero_add]
  · exact narrower

/-- A write to a byte or a word of the accumulator keeps the bits above. -/
theorem read_accumulator_above (size other : SizePrefix) (notHalf : w ≠ 32) (word : BitVec w) :
    (m.write (accumulator size) word).read (accumulator other) v =
      (insertField (m.registers .rax) 0 word).extractLsb' 0 v := by
  rw [read, family_accumulator, ← family_accumulator size, registers_write_self, if_neg notHalf,
    start_accumulator, start_accumulator]

@[simp]
theorem read_accumulator_self (size : SizePrefix) (word : BitVec size.bits) :
    (m.write (accumulator size) word).read (accumulator size) size.bits = word := by
  rw [read_accumulator m size size le_rfl size.bits_le, BitVec.setWidth_eq]

/-- The high half of a dividend is apart from the low half. -/
@[simp]
theorem read_accumulator_write_extension (size : SizePrefix) (word : BitVec size.bits) :
    (m.write (extension size) word).read (accumulator size) size.bits =
      m.read (accumulator size) size.bits := by
  cases size with
  | byte => exact extractLsb'_insertField_of_apart _ _ (by decide) (.inl (by decide))
  | word | dword | qword => exact read_write_of_ne m (by decide) word

@[simp]
theorem read_extension_self (size : SizePrefix) (word : BitVec size.bits) :
    (m.write (extension size) word).read (extension size) size.bits = word := by
  have fits := (extension size).fits
  rw [size_extension] at fits
  rw [read_write m _ _ rfl rfl (by cases size <;> decide) fits le_rfl, BitVec.setWidth_eq]

/-- The base of the frame is changed by instructions on `rbp` only. -/
theorem address_eq {other : MachineState}
    (base : other.registers .rbp = m.registers .rbp) (offset : Int) :
    other.address offset = m.address offset := by
  rw [address, address, base]

end MachineState

end Sulfur.Codegen
