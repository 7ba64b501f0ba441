import Sulfur.Codegen.Select
import Sulfur.Library.Jump

/-!
# The process

The assembled program runs from `_start`.  A call stores the address of the instruction
after it, and a return goes to the address on top of the stack.  The addresses that the
assembler and the linker give to the instructions are a parameter.
-/

namespace Sulfur.Codegen

open Machine Ir Jump

/-! ## Code -/

/-- A name of the assembly text with the code up to the next one. -/
structure Routine where
  name : String
  items : List Item
  deriving DecidableEq, Repr

/-- The `_start` of `sf_generate_assembly`. -/
def startItems : List Item :=
  [emit .call [.symbol "main"], emit .mov [.register .edi, .register .eax],
    emit .mov [.register .rax, .immediate "60"], emit .syscall []]

/-- The items of a function, in the order in which they are printed. -/
def EmittedFunction.items (func : EmittedFunction) : List Item :=
  func.entry ++ func.parameters ++ func.operations

/-- The routines of a program: `_start` and its functions. -/
def routines (functions : List EmittedFunction) : List Routine :=
  ⟨"_start", startItems⟩ :: functions.map fun func => ⟨func.name, func.items⟩

/-- Where an instruction is. -/
structure Place where
  routine : Nat
  index : Nat
  deriving DecidableEq, Repr

namespace Place

variable (place : Place) (n : Nat)

/-- The place `n` items further. -/
def advance : Place :=
  ⟨place.routine, place.index + n⟩

@[simp]
theorem routine_advance : (place.advance n).routine = place.routine := rfl

end Place

/-- The item at a place of the program. -/
def itemAt (program : List Routine) (place : Place) : Option Item :=
  program[place.routine]?.bind fun routine => routine.items[place.index]?

/-- The routine with a name. -/
def findRoutine (program : List Routine) (name : String) : Option Nat :=
  program.findIdx? fun routine => routine.name = name

/-- The place of a label, which is local to its routine. -/
def findLabel (program : List Routine) (routine id : Nat) : Option Place :=
  program[routine]?.bind fun code =>
    (code.items.findIdx? (· = .label id)).map (⟨routine, ·⟩)

/-- The addresses of the places. -/
structure Layout where
  address : Place → BitVec 64
  place : BitVec 64 → Option Place

/-! ## Steps -/

/-- A process runs at a place of the program, or has exited with a status. -/
inductive Process
  | running (place : Place) (machine : MachineState)
  | exited (status : BitVec 32)

/-- One instruction: a control transfer, the system call 60, or an instruction that goes on
to the next item. -/
def Instruction.step (program : List Routine) (layout : Layout) (place : Place)
    (m : MachineState) : Instruction → Option Process
  | ⟨.call, [.symbol name]⟩ =>
      (findRoutine program name).map fun routine =>
        .running ⟨routine, 0⟩ (m.push (layout.address (place.advance 1)))
  | ⟨.ret, []⟩ => (layout.place m.top).map fun next => .running next m.drop
  | ⟨.syscall, []⟩ =>
      if m.registers .rax = 60 then some (.exited (m.read .edi 32)) else none
  | ⟨mnemonic, [.label id]⟩ =>
      (m.jumps mnemonic).bind fun taken =>
        if taken then
          (findLabel program place.routine id).map fun next => .running next m
        else
          some (.running (place.advance 1) m)
  | instr => (instr.exec (fun _ _ => none) m).map (.running (place.advance 1))

/-- One item.  A routine that ends without a return is stuck. -/
def Process.step (program : List Routine) (layout : Layout) : Process → Option Process
  | .exited _ => none
  | .running place m =>
      match itemAt program place with
      | none => none
      | some (.label _) => some (.running (place.advance 1) m)
      | some (.instruction instr) => instr.step program layout place m

end Sulfur.Codegen
