import Sulfur.Utils.Text

/-!
# Assembly text

The registers, mnemonics, operands and lines that `codegen.c` prints.  The code
generator of this model returns lines, and the text of a line is what the source
gives to `emitf`.
-/

namespace Sulfur.Codegen

/-- The registers that the code generator names. -/
inductive Register
  | rax | eax | ax | al | ah
  | rcx | ecx | cx | cl
  | rdx | edx | dx | dl
  | rsi | esi | si | sil
  | rdi | edi | di | dil
  | r8 | r8d | r8w | r8b
  | r9 | r9d | r9w | r9b
  | rbp | rsp
  deriving DecidableEq, Repr, Inhabited

/-- `register_to_string`. -/
def Register.text : Register → String
  | .rax => "rax" | .eax => "eax" | .ax => "ax" | .al => "al" | .ah => "ah"
  | .rcx => "rcx" | .ecx => "ecx" | .cx => "cx" | .cl => "cl"
  | .rdx => "rdx" | .edx => "edx" | .dx => "dx" | .dl => "dl"
  | .rsi => "rsi" | .esi => "esi" | .si => "si" | .sil => "sil"
  | .rdi => "rdi" | .edi => "edi" | .di => "di" | .dil => "dil"
  | .r8 => "r8" | .r8d => "r8d" | .r8w => "r8w" | .r8b => "r8b"
  | .r9 => "r9" | .r9d => "r9d" | .r9w => "r9w" | .r9b => "r9b"
  | .rbp => "rbp" | .rsp => "rsp"

/-- The instructions that the code generator prints. -/
inductive Mnemonic
  | mov | movsx | movsxd | movzx
  | add | sub | mul | imul | div | idiv
  | cqo | cdq | cwd | cbw
  | and | or | xor | neg | not
  | shl | sar | shr
  | cmp | sete | setne | setl | setb | setle | setbe | setg | seta | setge | setae
  | jmp | je | call | ret | push | pop | syscall
  deriving DecidableEq, Repr, Inhabited

/-- The spelling of a mnemonic. -/
def Mnemonic.text : Mnemonic → String
  | .mov => "mov" | .movsx => "movsx" | .movsxd => "movsxd" | .movzx => "movzx"
  | .add => "add" | .sub => "sub" | .mul => "mul" | .imul => "imul"
  | .div => "div" | .idiv => "idiv"
  | .cqo => "cqo" | .cdq => "cdq" | .cwd => "cwd" | .cbw => "cbw"
  | .and => "and" | .or => "or" | .xor => "xor" | .neg => "neg" | .not => "not"
  | .shl => "shl" | .sar => "sar" | .shr => "shr"
  | .cmp => "cmp" | .sete => "sete" | .setne => "setne" | .setl => "setl"
  | .setb => "setb" | .setle => "setle" | .setbe => "setbe" | .setg => "setg"
  | .seta => "seta" | .setge => "setge" | .setae => "setae"
  | .jmp => "jmp" | .je => "je" | .call => "call" | .ret => "ret"
  | .push => "push" | .pop => "pop" | .syscall => "syscall"

/-- `sf_size_prefix`. -/
inductive SizePrefix
  | byte
  | word
  | dword
  | qword
  deriving DecidableEq, Repr, Inhabited

/-- `prefix_to_string`. -/
def SizePrefix.text : SizePrefix → String
  | .byte => "BYTE"
  | .word => "WORD"
  | .dword => "DWORD"
  | .qword => "QWORD"

/-- What `%+PRId64` prints. -/
def signedText (offset : Int) : String :=
  if offset < 0 then toString offset else "+" ++ toString offset

/-- The operands of an instruction.  `empty` is what `format_operand` makes of an
operand that is neither a value nor in memory. -/
inductive Argument
  | register (reg : Register)
  | immediate (value : String)
  | memory (size : SizePrefix) (offset : Int)
  | label (id : Nat)
  | symbol (name : String)
  | empty
  deriving DecidableEq, Repr, Inhabited

/-- The name of a label, `.L` and its number. -/
def labelText (id : Nat) : String :=
  ".L" ++ toString id

/-- An operand as `format_operand` prints it. -/
def Argument.text : Argument → String
  | .register reg => reg.text
  | .immediate value => value
  | .memory size offset => size.text ++ " [rbp" ++ signedText offset ++ "]"
  | .label id => labelText id
  | .symbol name => name
  | .empty => ""

/-- A line of assembly that is no label. -/
structure Instruction where
  mnemonic : Mnemonic
  arguments : List Argument := []
  deriving DecidableEq, Repr, Inhabited

/-- The operands of an instruction, separated by commas. -/
def argumentsText : List Argument → String
  | [] => ""
  | argument :: rest =>
      " " ++ argument.text ++ rest.foldl (fun text other => text ++ ", " ++ other.text) ""

/-- What one call of `emitf` prints in a function. -/
inductive Item
  | label (id : Nat)
  | instruction (instr : Instruction)
  deriving DecidableEq, Repr, Inhabited

/-- A label leaves its line open, an instruction ends it. -/
def Item.text : Item → String
  | .label id => labelText id ++ ":"
  | .instruction instr =>
      "\t" ++ instr.mnemonic.text ++ argumentsText instr.arguments ++ "\n"

/-- The text of a list of items. -/
def itemsText (items : List Item) : String :=
  String.join (items.map Item.text)

end Sulfur.Codegen
