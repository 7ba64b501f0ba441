import Sulfur.Codegen.Convention
import Sulfur.Codegen.Footprint
import Sulfur.Codegen.Process

/-!
# Stack discipline

The code of a function sets up its frame, pushes and releases the arguments of its calls,
and leaves the frame before it returns.  How many bytes are below the base pointer is known
at every instruction, so that the saved base pointers and the return addresses stay as they
are until they are read: control returns to where it was called from, with the same stack.
-/

namespace Sulfur.Codegen

open Machine Ir Jump

/-! ## Shapes -/

/-- How far the frame of a function is set up, and how many bytes are pushed below it. -/
inductive Shape
  | outside
  | saved
  | based
  | body (pushed : Nat)
  deriving DecidableEq, Repr

namespace Shape

/-- The bytes between the return address and the top of the stack. -/
def depth (frame : Nat) : Shape → Nat
  | outside => 0
  | saved | based => 8
  | body pushed => 8 + frame + pushed

/-- Whether the base pointer is that of the function. -/
def isBased : Shape → Bool
  | outside | saved => false
  | based | body _ => true

/-- What an item makes of the shape of a function with a frame of that size.  What follows
a return is reached by jumps only. -/
inductive Step (frame : Nat) : Shape → Item → Shape → Prop
  | save : Step frame .outside (emit .push [.register .rbp]) .saved
  | base : Step frame .saved (emit .mov [.register .rbp, .register .rsp]) .based
  | reserve : Step frame .based
      (emit .sub [.register .rsp, .immediate (toString frame)]) (.body 0)
  | stay {item : Item} (pushed : Nat) (isLocal : item.Local frame) :
      Step frame (.body pushed) item (.body pushed)
  | pad (pushed : Nat) : Step frame (.body pushed)
      (emit .sub [.register .rsp, .immediate "8"]) (.body (pushed + 8))
  | push (pushed : Nat) : Step frame (.body pushed)
      (emit .push [.register .rax]) (.body (pushed + 8))
  | call {pushed : Nat} {name : String} (aligned : 16 ∣ pushed) (other : name ≠ "_start") :
      Step frame (.body pushed) (emit .call [.symbol name]) (.body pushed)
  | release {pushed : Nat} (small : pushed < 2 ^ 31) : Step frame (.body pushed)
      (emit .add [.register .rsp, .immediate (toString pushed)]) (.body 0)
  | label (id : Nat) : Step frame (.body 0) (.label id) (.body 0)
  | jump {mnemonic : Mnemonic} (isJump : mnemonic ∈ [.jmp, .je]) (id : Nat) :
      Step frame (.body 0) (emit mnemonic [.label id]) (.body 0)
  | leave : Step frame (.body 0) (emit .mov [.register .rsp, .register .rbp]) .based
  | restore : Step frame .based (emit .pop [.register .rbp]) .outside
  | ret : Step frame .outside (emit .ret []) (.body 0)

/-- The state of a function whose return address is at `entry`, and whose caller has that
base pointer. -/
structure Holds (shape : Shape) (frame entry : Nat) (caller : BitVec 64) (m : MachineState) :
    Prop where
  top : (m.registers .rsp).toNat + shape.depth frame = entry
  base : m.registers .rbp = if shape.isBased then BitVec.ofNat 64 (entry - 8) else caller
  saved : shape ≠ .outside → m.memory.load (BitVec.ofNat 64 (entry - 8)) 64 = caller

end Shape

/-! ## Memory above an address -/

/-- The bytes from an address on are the same. -/
def SameFrom (limit : Nat) (memory other : Memory 64) : Prop :=
  ∀ byte : BitVec 64, limit ≤ byte.toNat → other byte = memory byte

namespace SameFrom

variable {limit : Nat} {memory other : Memory 64}

theorem load (same : SameFrom limit memory other) {address : Nat} (above : limit ≤ address)
    (fits : address + 8 ≤ 2 ^ 64) :
    other.load (BitVec.ofNat 64 address) 64 = memory.load (BitVec.ofNat 64 address) 64 := by
  have isAddress : (BitVec.ofNat 64 address).toNat = address :=
    Nat.mod_eq_of_lt (by omega)
  apply Memory.load_congr
  intro byte covers
  apply same
  have bounds := covers.le (by omega)
  omega

theorem mono {higher : Nat} (same : SameFrom limit memory other) (le : limit ≤ higher) :
    SameFrom higher memory other :=
  fun byte above => same byte (le.trans above)

/-- A word that is stored below. -/
theorem store {address : BitVec 64} (below : address.toNat + 8 ≤ limit) (word : BitVec 64) :
    SameFrom limit memory (memory.store address word) := by
  intro byte above
  apply Memory.store_of_not_covers
  intro covers
  have bounds := covers.le (by omega)
  omega

end SameFrom

theorem toNat_address_neg {m : MachineState} {depth : Nat}
    (below : depth ≤ (m.registers .rbp).toNat) :
    (m.address (-depth)).toNat = (m.registers .rbp).toNat - depth := by
  have bound := (m.registers .rbp).isLt
  rw [MachineState.address, BitVec.ofInt_neg, BitVec.ofInt_natCast, ← BitVec.sub_eq_add_neg]
  have isDepth : (BitVec.ofNat 64 depth).toNat = depth := Nat.mod_eq_of_lt (by omega)
  rw [BitVec.toNat_sub_of_le (by rw [BitVec.le_def, isDepth]; exact below), isDepth]

/-- What is written in a frame below an address. -/
theorem Within.sameFrom {frame limit : Nat} {m next : MachineState}
    (within : Within frame m next) (below : frame ≤ (m.registers .rbp).toNat)
    (limited : (m.registers .rbp).toNat ≤ limit) : SameFrom limit m.memory next.memory := by
  intro byte above
  apply within.memory
  intro covers
  have start := toNat_address_neg below
  have bound := (m.registers .rbp).isLt
  have bounds := covers.le (by omega)
  omega

/-- A name stands for a place of the frame. -/
theorem exists_depth {map : StackMap} (descending : map.Descending) (name : String) :
    ∃ depth ≤ frameSize map, map.lookup name = -(depth : Int) := by
  unfold StackMap.lookup
  split
  · rename_i entry isEntry
    have listed := (StackMap.mem_of_lookupEntry isEntry).1
    have below := descending.inFrame entry listed
    have deep := offset_inFrame listed
    exact ⟨(-entry.offset).toNat, by omega, by omega⟩
  · exact ⟨0, Nat.zero_le _, rfl⟩

/-- The slots of a frame above the stack pointer stay as they are with the memory there. -/
theorem frameStore_congr {map : StackMap} (descending : map.Descending) {m next : MachineState}
    (base : next.registers .rbp = m.registers .rbp) {limit : Nat}
    (same : SameFrom limit m.memory next.memory)
    (above : limit + frameSize map ≤ (m.registers .rbp).toNat)
    (bound : (m.registers .rbp).toNat + 8 ≤ 2 ^ 64) : frameStore map next = frameStore map m := by
  funext slot
  rcases exists_depth descending (slotText slot) with ⟨depth, inFrame, isDepth⟩
  have isAddress : m.address (-depth) = BitVec.ofNat 64 ((m.registers .rbp).toNat - depth) := by
    rw [← toNat_address_neg (by omega), BitVec.ofNat_toNat, BitVec.setWidth_eq]
  rw [frameStore, frameStore, isDepth, m.address_eq base, isAddress,
    same.load (by omega) (by omega)]

/-! ## Instructions -/

section Instructions

variable {frame entry : Nat} {caller : BitVec 64} {m next : MachineState}

theorem toNat_sub_ofNat {x : BitVec 64} {n : Nat} (le : n ≤ x.toNat) :
    (x - BitVec.ofNat 64 n).toNat = x.toNat - n := by
  have bound := x.isLt
  have isNat : (BitVec.ofNat 64 n).toNat = n := Nat.mod_eq_of_lt (by omega)
  rw [BitVec.toNat_sub_of_le (by rw [BitVec.le_def, isNat]; exact le), isNat]

theorem toNat_add_ofNat {x : BitVec 64} {n : Nat} (fits : x.toNat + n < 2 ^ 64) :
    (x + BitVec.ofNat 64 n).toNat = x.toNat + n := by
  rw [BitVec.toNat_add, BitVec.toNat_ofNat, Nat.mod_eq_of_lt (show n < 2 ^ 64 by omega),
    Nat.mod_eq_of_lt fits]

theorem eq_ofNat {x : BitVec 64} {n : Nat} (same : x.toNat = n) : x = BitVec.ofNat 64 n := by
  rw [← same, BitVec.ofNat_toNat, BitVec.setWidth_eq]

/-- A word is pushed below the stack. -/
theorem SameFrom.push (word : BitVec 64) (room : 8 ≤ (m.registers .rsp).toNat) :
    SameFrom (m.registers .rsp).toNat m.memory (m.push word).memory := by
  apply SameFrom.store
  rw [show (8 : BitVec 64) = BitVec.ofNat 64 8 from rfl, toNat_sub_ofNat room]
  omega

theorem registers_push (word : BitVec 64) (family : Family) :
    (m.push word).registers family =
      if family = .rsp then m.registers .rsp - 8 else m.registers family := rfl

theorem load_push (word : BitVec 64) :
    (m.push word).memory.load (m.registers .rsp - 8) 64 = word :=
  Memory.load_store word (by norm_num)

/-- An instruction inside of the body of a function. -/
theorem Shape.Holds.within {pushed : Nat} (holds : (body pushed).Holds frame entry caller m)
    (bound : entry < 2 ^ 64) (within : Within frame m next) :
    (body pushed).Holds frame entry caller next ∧ SameFrom (entry - 8) m.memory next.memory := by
  have top := holds.top
  have base := holds.base
  rw [depth] at top
  rw [isBased, if_pos rfl] at base
  have isBase : (m.registers .rbp).toNat = entry - 8 := by
    rw [base, BitVec.toNat_ofNat, Nat.mod_eq_of_lt (by omega)]
  have same : SameFrom (entry - 8) m.memory next.memory :=
    within.sameFrom (by omega) (by omega)
  refine ⟨⟨?_, ?_, ?_⟩, same⟩
  · rw [within.top]
    exact holds.top
  · rw [within.base]
    exact holds.base
  · intro inside
    rw [same.load le_rfl (by omega)]
    exact holds.saved inside

/-- A push into the body of a function. -/
theorem Shape.Holds.push {pushed : Nat} (holds : (body pushed).Holds frame entry caller m)
    (bound : entry < 2 ^ 64) (room : 8 ≤ (m.registers .rsp).toNat) (word : BitVec 64) :
    (body (pushed + 8)).Holds frame entry caller (m.push word) := by
  have top := holds.top
  rw [depth] at top
  have same := SameFrom.push word room
  constructor
  · rw [registers_push, if_pos rfl, show (8 : BitVec 64) = BitVec.ofNat 64 8 from rfl,
      toNat_sub_ofNat room, depth]
    omega
  · exact holds.base
  · intro inside
    rw [same.load (by omega) (by omega)]
    exact holds.saved Shape.noConfusion

/-- The stack pointer moves inside of a function. -/
theorem Shape.Holds.move {shape other : Shape} (holds : shape.Holds frame entry caller m)
    (inside : shape ≠ .outside) (based : other.isBased = shape.isBased) {top : BitVec 64}
    (isTop : top.toNat + other.depth frame = entry) :
    other.Holds frame entry caller (m.setFamily .rsp top) := by
  constructor
  · exact isTop
  · rw [based]
    exact holds.base
  · intro _
    exact holds.saved inside

/-- A `sub` lowers the stack pointer inside of a function. -/
theorem Shape.Holds.lower {shape other : Shape} (holds : shape.Holds frame entry caller m)
    (inside : shape ≠ .outside) (based : other.isBased = shape.isBased) {size : Nat}
    (small : size < 2 ^ 31) (room : 2 ^ 32 ≤ (m.registers .rsp).toNat)
    (deeper : other.depth frame = shape.depth frame + size)
    (executed : Instruction.exec (fun _ _ => none) m
      ⟨.sub, [.register .rsp, .immediate (toString size)]⟩ = some next) :
    other.Holds frame entry caller next ∧ SameFrom entry m.memory next.memory := by
  have top := holds.top
  have forgotten : shape.Holds frame entry caller m.forgetFlags :=
    ⟨holds.top, holds.base, holds.saved⟩
  rw [exec_sub_rsp, extendedImmediate_toString small] at executed
  rcases executed
  refine ⟨forgotten.move inside based ?_, fun _ _ => rfl⟩
  rw [toNat_sub_ofNat (by omega), deeper]
  omega

/-- An `add` raises it again. -/
theorem Shape.Holds.raise {shape other : Shape} (holds : shape.Holds frame entry caller m)
    (inside : shape ≠ .outside) (based : other.isBased = shape.isBased) {size : Nat}
    (small : size < 2 ^ 31) (bound : entry < 2 ^ 64)
    (deeper : shape.depth frame = other.depth frame + size)
    (executed : Instruction.exec (fun _ _ => none) m
      ⟨.add, [.register .rsp, .immediate (toString size)]⟩ = some next) :
    other.Holds frame entry caller next ∧ SameFrom entry m.memory next.memory := by
  have top := holds.top
  have forgotten : shape.Holds frame entry caller m.forgetFlags :=
    ⟨holds.top, holds.base, holds.saved⟩
  rw [exec_add_rsp, extendedImmediate_toString small] at executed
  rcases executed
  refine ⟨forgotten.move inside based ?_, fun _ _ => rfl⟩
  rw [toNat_add_ofNat (by omega)]
  omega

/-- On entry the base pointer of the caller is saved below the return address. -/
theorem Shape.Holds.save (holds : outside.Holds frame entry caller m)
    (room : 2 ^ 32 ≤ (m.registers .rsp).toNat) :
    Shape.saved.Holds frame entry caller (m.push (m.registers .rbp)) ∧
      SameFrom entry m.memory (m.push (m.registers .rbp)).memory := by
  have isEntry : (m.registers .rsp).toNat = entry := holds.top
  have eight : (8 : BitVec 64) = BitVec.ofNat 64 8 := rfl
  have below : m.registers .rsp - 8 = BitVec.ofNat 64 (entry - 8) := by
    apply eq_ofNat
    rw [eight, toNat_sub_ofNat (by omega), isEntry]
  refine ⟨⟨?_, holds.base, ?_⟩, ?_⟩
  · rw [registers_push, if_pos rfl, eight, toNat_sub_ofNat (by omega), depth]
    omega
  · intro _
    rw [← below, load_push]
    exact holds.base
  · rw [← isEntry]
    exact SameFrom.push _ (by omega)

/-- At the end the stack pointer goes back to the base pointer. -/
theorem Shape.Holds.leave (holds : (body 0).Holds frame entry caller m)
    (bound : entry < 2 ^ 64) :
    based.Holds frame entry caller (m.setFamily .rsp (m.registers .rbp)) := by
  have top := holds.top
  have base : m.registers .rbp = BitVec.ofNat 64 (entry - 8) := holds.base
  rw [depth] at top
  refine holds.move Shape.noConfusion ?_ ?_
  · rfl
  · rw [base, BitVec.toNat_ofNat, Nat.mod_eq_of_lt (by omega), depth]
    omega

/-- The saved base pointer is the one of the caller. -/
theorem Shape.Holds.restore (holds : based.Holds frame entry caller m)
    (bound : entry < 2 ^ 64) :
    outside.Holds frame entry caller (m.drop.setFamily .rbp m.top) := by
  have top := holds.top
  rw [depth] at top
  have isTop : m.registers .rsp = BitVec.ofNat 64 (entry - 8) := eq_ofNat (by omega)
  refine ⟨?_, ?_, fun inside => (inside rfl).elim⟩
  · change (m.registers .rsp + BitVec.ofNat 64 8).toNat + 0 = entry
    rw [toNat_add_ofNat (by omega)]
    omega
  · change m.top = caller
    rw [MachineState.top, isTop]
    exact holds.saved Shape.noConfusion

/-- What an instruction makes of the shape of a function, it makes of its state. -/
theorem Shape.Step.exec {shape after : Shape} {item : Item} {instr : Instruction}
    (step : Step frame shape item after) (isInstr : item = .instruction instr)
    (holds : shape.Holds frame entry caller m) (small : frame < 2 ^ 31) (bound : entry < 2 ^ 64)
    (room : 2 ^ 32 ≤ (m.registers .rsp).toNat)
    (executed : instr.exec (fun _ _ => none) m = some next) :
    after.Holds frame entry caller next ∧ SameFrom entry m.memory next.memory := by
  have unchanged : SameFrom entry m.memory m.memory := fun _ _ => rfl
  cases step with
  | save =>
      rcases isInstr
      rw [exec_push _ rfl rfl] at executed
      rcases executed
      exact holds.save room
  | base =>
      rcases isInstr
      rw [exec_mov_whole _ rfl rfl] at executed
      rcases executed
      have top := holds.top
      rw [depth] at top
      refine ⟨⟨holds.top, ?_, fun _ => holds.saved Shape.noConfusion⟩, unchanged⟩
      change m.registers .rsp = BitVec.ofNat 64 (entry - 8)
      apply eq_ofNat
      omega
  | reserve =>
      rcases isInstr
      exact holds.lower Shape.noConfusion rfl small room (by simp only [depth]; omega) executed
  | stay pushed isLocal =>
      subst isInstr
      have stays := holds.within bound (Instruction.Local.within isLocal executed)
      exact ⟨stays.1, stays.2.mono (Nat.sub_le _ _)⟩
  | pad pushed =>
      rcases isInstr
      rw [show "8" = toString 8 from rfl] at executed
      exact holds.lower Shape.noConfusion rfl (by decide) room (by simp only [depth]; omega)
        executed
  | push pushed =>
      rcases isInstr
      rw [exec_push _ rfl rfl] at executed
      rcases executed
      have top := holds.top
      rw [depth] at top
      exact ⟨holds.push bound (by omega) _, (SameFrom.push _ (by omega)).mono (by omega)⟩
  | release smallPushed =>
      rcases isInstr
      exact holds.raise Shape.noConfusion rfl smallPushed bound (by simp only [depth]; omega)
        executed
  | leave =>
      rcases isInstr
      rw [exec_mov_whole _ rfl rfl] at executed
      rcases executed
      exact ⟨holds.leave bound, unchanged⟩
  | restore =>
      rcases isInstr
      rw [exec_pop _ rfl rfl] at executed
      rcases executed
      exact ⟨holds.restore bound, unchanged⟩
  | call | ret =>
      rcases isInstr
      cases executed
  | label => cases isInstr
  | jump isJump =>
      rcases isInstr
      simp only [List.mem_cons, List.not_mem_nil, or_false] at isJump
      rcases isJump with rfl | rfl <;> cases executed

end Instructions

/-! ## Programs -/

/-- The sizes of the frames of a program, and the shapes before its items. -/
structure Shaping (program : List Routine) where
  frame : Nat → Nat
  shape : Nat → Nat → Shape
  start : program.head? = some ⟨"_start", startItems⟩
  aligned : ∀ routine, 16 ∣ frame routine
  small : ∀ routine, frame routine < 2 ^ 31
  entry : ∀ routine ≠ 0, shape routine 0 = .outside
  steps : ∀ place : Place, place.routine ≠ 0 → ∀ item, itemAt program place = some item →
    (shape place.routine place.index).Step (frame place.routine) item
      (shape place.routine (place.index + 1))

/-- The place after a call is found at its address. -/
def Layout.Resolves (layout : Layout) (program : List Routine) : Prop :=
  ∀ place name, itemAt program place = some (emit .call [.symbol name]) →
    layout.place (layout.address (place.advance 1)) = some (place.advance 1)

/-- A call that has not returned: where it returns to, with which stack pointer and which
base pointer. -/
structure Activation where
  place : Place
  top : BitVec 64
  base : BitVec 64

variable {program : List Routine} (shaping : Shaping program) (layout : Layout)

/-- The memory from the return address at `entry` on belongs to the calls that have not
returned. -/
inductive Suspended : List Activation → Nat → BitVec 64 → Memory 64 → Prop
  | start {entry : Nat} {top base : BitVec 64} {memory : Memory 64}
      (isTop : top.toNat = entry + 8) (aligned : 16 ∣ entry + 8)
      (resolves : layout.place (layout.address ⟨0, 1⟩) = some ⟨0, 1⟩)
      (address : memory.load (BitVec.ofNat 64 entry) 64 = layout.address ⟨0, 1⟩) :
      Suspended [⟨⟨0, 1⟩, top, base⟩] entry base memory
  | call {shadow : List Activation} {place : Place} {pushed entry outer : Nat}
      {top base caller : BitVec 64} {memory : Memory 64}
      (rest : Suspended shadow outer caller memory) (inside : place.routine ≠ 0)
      (shape : shaping.shape place.routine place.index = .body pushed)
      (isTop : top.toNat = entry + 8)
      (below : top.toNat + (8 + shaping.frame place.routine + pushed) = outer)
      (isBase : base = BitVec.ofNat 64 (outer - 8)) (aligned : 16 ∣ entry + 8)
      (resolves : layout.place (layout.address place) = some place)
      (address : memory.load (BitVec.ofNat 64 entry) 64 = layout.address place)
      (saved : memory.load (BitVec.ofNat 64 (outer - 8)) 64 = caller) :
      Suspended (⟨place, top, base⟩ :: shadow) entry base memory

variable {shaping layout}

theorem Suspended.bounds {shadow : List Activation} {entry : Nat} {base : BitVec 64}
    {memory : Memory 64} (suspended : Suspended shaping layout shadow entry base memory) :
    entry + 8 < 2 ^ 64 ∧ 16 ∣ entry + 8 := by
  cases suspended with
  | start isTop aligned =>
      rw [← isTop]
      exact ⟨BitVec.isLt _, isTop ▸ aligned⟩
  | call rest inside shape isTop below isBase aligned =>
      rw [← isTop]
      exact ⟨BitVec.isLt _, isTop ▸ aligned⟩

theorem Suspended.sameFrom {shadow : List Activation} {entry : Nat} {base : BitVec 64}
    {memory other : Memory 64} (suspended : Suspended shaping layout shadow entry base memory)
    (same : SameFrom entry memory other) :
    Suspended shaping layout shadow entry base other := by
  have bound := suspended.bounds.1
  induction suspended with
  | start isTop aligned resolves address =>
      refine .start isTop aligned resolves ?_
      rw [same.load le_rfl (by omega), address]
  | call rest inside shape isTop below isBase aligned resolves address saved
      inductionHypothesis =>
      have outerBound := rest.bounds.1
      refine .call (inductionHypothesis (same.mono (by omega)) outerBound) inside shape isTop
        below isBase aligned resolves ?_ ?_
      · rw [same.load le_rfl (by omega), address]
      · rw [same.load (by omega) (by omega), saved]

/-- The calls that have not returned are above the function that runs. -/
theorem Suspended.le_top {entry : Nat} {base : BitVec 64} {memory : Memory 64}
    (suspended : Suspended shaping layout shadow entry base memory) :
    ∀ call ∈ shadow, entry + 8 ≤ call.top.toNat := by
  induction suspended with
  | start isTop =>
      intro call listed
      rcases List.mem_singleton.mp listed
      exact isTop.ge
  | call rest inside shape isTop below isBase aligned resolves address saved
      inductionHypothesis =>
      intro call listed
      rcases List.mem_cons.mp listed with rfl | listed
      · exact isTop.ge
      · have above := inductionHypothesis call listed
        omega

variable (shaping layout)

/-- The calls that have not returned, and a state that can return to them. -/
inductive Disciplined : List Activation → Process → Prop
  | start {index : Nat} {m : MachineState}
      (aligned : index = 0 → 16 ∣ (m.registers .rsp).toNat) :
      Disciplined [] (.running ⟨0, index⟩ m)
  | inside {shadow : List Activation} {place : Place} {entry : Nat} {caller : BitVec 64}
      {m : MachineState} (inFunction : place.routine ≠ 0)
      (suspended : Suspended shaping layout shadow entry caller m.memory)
      (holds : (shaping.shape place.routine place.index).Holds
        (shaping.frame place.routine) entry caller m) :
      Disciplined shadow (.running place m)
  | exited (status : BitVec 32) : Disciplined [] (.exited status)

/-- The stack pointer is above the first 4 GiB. -/
def Process.InStack : Process → Prop
  | .running _ m => 2 ^ 32 ≤ (m.registers .rsp).toNat
  | .exited _ => True

/-- The calls that have not returned, after an item. -/
def shadowAfter (item : Item) (place : Place) (m : MachineState) (shadow : List Activation) :
    List Activation :=
  match item with
  | .instruction ⟨.call, [.symbol _]⟩ =>
      ⟨place.advance 1, m.registers .rsp, m.registers .rbp⟩ :: shadow
  | .instruction ⟨.ret, []⟩ => shadow.tail
  | _ => shadow

/-- A step of the process beside the calls that have not returned. -/
def shadowStep (program : List Routine) (layout : Layout) :
    List Activation × Process → Option (List Activation × Process)
  | (_, .exited _) => none
  | (shadow, .running place m) => do
      let item ← itemAt program place
      let next ← Process.step program layout (.running place m)
      return (shadowAfter item place m shadow, next)

/-! ## Steps -/

/-- The instructions that do not go on to the next one only. -/
def Mnemonic.isControl : Mnemonic → Bool
  | .call | .ret | .jmp | .je | .syscall => true
  | _ => false

section Steps

variable {shaping layout} {place : Place} {m : MachineState} {item : Item}
  {shadow : List Activation}

theorem Instruction.exec_of_step {instr : Instruction} {process : Process}
    (ordinary : instr.mnemonic.isControl = false)
    (step : instr.step program layout place m = some process) :
    ∃ next, instr.exec (fun _ _ => none) m = some next ∧
      process = .running (place.advance 1) next := by
  unfold Instruction.step at step
  split at step
  · cases ordinary
  · cases ordinary
  · cases ordinary
  · rename_i mnemonic id
    have noJump : m.jumps mnemonic = none := by
      cases mnemonic <;> first | rfl | cases ordinary
    rw [noJump] at step
    cases step
  · rcases Option.map_eq_some_iff.mp step with ⟨next, executed, rfl⟩
    exact ⟨next, executed, rfl⟩

theorem shadowAfter_of_ordinary {instr : Instruction}
    (ordinary : instr.mnemonic.isControl = false) :
    shadowAfter (.instruction instr) place m shadow = shadow := by
  unfold shadowAfter
  split
  · rename_i isCall
    rcases isCall
    cases ordinary
  · rename_i isRet
    rcases isRet
    cases ordinary
  · rfl

theorem Mnemonic.isControl_of_isTransfer {mnemonic : Mnemonic}
    (stays : mnemonic.isTransfer = false) : mnemonic.isControl = false := by
  cases mnemonic <;> first | rfl | cases stays

theorem Instruction.step_jump {mnemonic : Mnemonic} (isJump : mnemonic ∈ [.jmp, .je]) (id : Nat) :
    Instruction.step program layout place m ⟨mnemonic, [.label id]⟩ =
      (m.jumps mnemonic).bind fun taken =>
        if taken then
          (findLabel program place.routine id).map fun next => .running next m
        else
          some (.running (place.advance 1) m) := by
  simp only [List.mem_cons, List.not_mem_nil, or_false] at isJump
  rcases isJump with rfl | rfl <;> rfl

theorem itemAt_of_findLabel {routine id : Nat} {next : Place}
    (found : findLabel program routine id = some next) :
    next.routine = routine ∧ itemAt program next = some (.label id) := by
  rcases Option.bind_eq_some_iff.mp found with ⟨code, isCode, found⟩
  rcases Option.map_eq_some_iff.mp found with ⟨index, isIndex, rfl⟩
  rcases List.findIdx?_eq_some_iff_getElem.mp isIndex with ⟨bound, isLabel, -⟩
  refine ⟨rfl, ?_⟩
  rw [itemAt, isCode, Option.bind_some, List.getElem?_eq_getElem bound]
  exact congrArg some (of_decide_eq_true isLabel)

/-- A call is in the body of a function, with whole words of padding and arguments. -/
theorem Shaping.shape_call (shaping : Shaping program) (inFunction : place.routine ≠ 0)
    {name : String} (isCall : itemAt program place = some (emit .call [.symbol name])) :
    ∃ pushed, shaping.shape place.routine place.index = .body pushed ∧ 16 ∣ pushed := by
  have shapeStep := shaping.steps place inFunction _ isCall
  generalize isItem : emit .call [.symbol name] = item at shapeStep
  generalize shaping.shape place.routine place.index = before at *
  generalize shaping.shape place.routine (place.index + 1) = after at *
  cases shapeStep with
  | @call pushed _ aligned => exact ⟨pushed, rfl, aligned⟩
  | stay pushed isLocal =>
      rw [← isItem] at isLocal
      cases isLocal.1
  | save | base | reserve | pad | push | release | label | leave | restore | ret => cases isItem
  | jump isJump => rcases isItem

theorem Shaping.itemAt_start (shaping : Shaping program) (index : Nat) :
    itemAt program ⟨0, index⟩ = startItems[index]? := by
  have first := shaping.start
  rw [List.head?_eq_getElem?] at first
  rw [itemAt, first]
  rfl

/-- Only `_start` is the first routine. -/
theorem findRoutine_ne_zero (shaping : Shaping program) {name : String}
    (other : name ≠ "_start") {routine : Nat} (found : findRoutine program name = some routine) :
    routine ≠ 0 := by
  rintro rfl
  rcases List.findIdx?_eq_some_iff_getElem.mp found with ⟨bound, named, -⟩
  have first := shaping.start
  rw [List.head?_eq_getElem?, List.getElem?_eq_getElem bound, Option.some.injEq] at first
  rw [first] at named
  exact other (of_decide_eq_true named).symm

/-- A place before a label has an empty body. -/
theorem Shaping.shape_label (shaping : Shaping program) (inFunction : place.routine ≠ 0)
    {id : Nat} (isLabel : itemAt program place = some (.label id)) :
    shaping.shape place.routine place.index = .body 0 ∧
      shaping.shape place.routine (place.index + 1) = .body 0 := by
  have step := shaping.steps place inFunction _ isLabel
  generalize isItem : Item.label id = item at step
  generalize shaping.shape place.routine place.index = before at *
  generalize shaping.shape place.routine (place.index + 1) = after at *
  cases step with
  | label => exact ⟨rfl, rfl⟩
  | stay pushed isLocal =>
      rw [← isItem] at isLocal
      exact isLocal.elim
  | save | base | reserve | pad | push | call | release | jump | leave | restore | ret =>
      cases isItem

/-- A call stores the address of the place after it, and enters the called function. -/
theorem Shape.holds_entered (frame : Nat) (aligned : 16 ∣ (m.registers .rsp).toNat)
    (room : 8 ≤ (m.registers .rsp).toNat) (word : BitVec 64) :
    ∃ entry, (m.registers .rsp).toNat = entry + 8 ∧ 16 ∣ entry + 8 ∧
      (m.push word).memory.load (BitVec.ofNat 64 entry) 64 = word ∧
      Shape.outside.Holds frame entry (m.registers .rbp) (m.push word) := by
  have eight : (8 : BitVec 64) = BitVec.ofNat 64 8 := rfl
  have isEntry := toNat_sub_ofNat room
  have whole : (m.registers .rsp).toNat - 8 + 8 = (m.registers .rsp).toNat := by omega
  refine ⟨(m.registers .rsp).toNat - 8, whole.symm, by rwa [whole], ?_, ?_, rfl, ?_⟩
  · rw [← isEntry, BitVec.ofNat_toNat, BitVec.setWidth_eq]
    exact load_push word
  · rw [registers_push, if_pos rfl, eight, isEntry]
    rfl
  · exact fun inside => (inside rfl).elim

/-- A function keeps the memory of the calls that have not returned, and its instructions
other than a return lead to a function. -/
theorem exists_running_inside (inFunction : place.routine ≠ 0) {entry : Nat}
    {caller : BitVec 64} (bound : entry + 8 < 2 ^ 64)
    (holds : (shaping.shape place.routine place.index).Holds
      (shaping.frame place.routine) entry caller m)
    (inStack : (Process.running place m).InStack) {item : Item}
    (isItem : itemAt program place = some item)
    (step : Process.step program layout (.running place m) = some process) :
    ∃ next last, process = .running next last ∧ SameFrom entry m.memory last.memory ∧
      (item ≠ emit .ret [] → next.routine ≠ 0) := by
  have room : 2 ^ 32 ≤ (m.registers .rsp).toNat := inStack
  have frameSmall := shaping.small place.routine
  have shapeStep := shaping.steps place inFunction item isItem
  have unchanged : SameFrom entry m.memory m.memory := fun _ _ => rfl
  simp only [Process.step, isItem] at step
  have ordinary {instr : Instruction} (isInstr : item = .instruction instr)
      (isOrdinary : instr.mnemonic.isControl = false) :
      ∃ next last, process = .running next last ∧ SameFrom entry m.memory last.memory ∧
        (item ≠ emit .ret [] → next.routine ≠ 0) := by
    subst isInstr
    rcases Instruction.exec_of_step isOrdinary step with ⟨last, executed, rfl⟩
    have same := (shapeStep.exec rfl holds frameSmall (by omega) room executed).2
    exact ⟨_, last, rfl, same, fun _ => inFunction⟩
  generalize shaping.shape place.routine place.index = before at *
  generalize shaping.shape place.routine (place.index + 1) = after at *
  cases shapeStep with
  | save | base | reserve | pad | push | release | leave | restore => exact ordinary rfl rfl
  | ret =>
      rcases Option.map_eq_some_iff.mp step with ⟨next, -, rfl⟩
      exact ⟨next, _, rfl, unchanged, fun other => absurd rfl other⟩
  | stay pushed isLocal =>
      cases item with
      | label => exact isLocal.elim
      | instruction instr => exact ordinary rfl (Mnemonic.isControl_of_isTransfer isLocal.1)
  | label id =>
      rcases step
      exact ⟨_, m, rfl, unchanged, fun _ => inFunction⟩
  | call aligned elsewhere =>
      rcases Option.map_eq_some_iff.mp step with ⟨routine, found, rfl⟩
      have top := holds.top
      exact ⟨_, _, rfl, (SameFrom.push _ (by omega)).mono (by omega),
        fun _ => findRoutine_ne_zero shaping elsewhere found⟩
  | @jump mnemonic isJump id =>
      change Instruction.step program layout place m ⟨mnemonic, [.label id]⟩ = some process at step
      rw [Instruction.step_jump isJump] at step
      rcases Option.bind_eq_some_iff.mp step with ⟨taken, -, step⟩
      cases taken with
      | true =>
          rcases Option.map_eq_some_iff.mp step with ⟨next, found, rfl⟩
          rw [← (itemAt_of_findLabel found).1] at inFunction
          exact ⟨next, m, rfl, unchanged, fun _ => inFunction⟩
      | false =>
          rcases step
          exact ⟨_, m, rfl, unchanged, fun _ => inFunction⟩

/-- The steps of `_start`. -/
theorem disciplined_start {index : Nat} (shaping : Shaping program)
    (resolves : layout.Resolves program)
    (aligned : index = 0 → 16 ∣ (m.registers .rsp).toNat)
    (inStack : (Process.running ⟨0, index⟩ m).InStack) {process : Process}
    (isItem : itemAt program ⟨0, index⟩ = some item)
    (step : Process.step program layout (.running ⟨0, index⟩ m) = some process) :
    Disciplined shaping layout (shadowAfter item ⟨0, index⟩ m []) process := by
  have isStart : startItems[index]? = some item := by
    rw [← shaping.itemAt_start, isItem]
  simp only [Process.step, isItem] at step
  have later {process : Process} {instr : Instruction}
      (ordinary : instr.mnemonic.isControl = false)
      (step : instr.step program layout ⟨0, index⟩ m = some process) :
      Disciplined shaping layout [] process := by
    rcases Instruction.exec_of_step ordinary step with ⟨next, -, rfl⟩
    exact .start fun zero => (Nat.succ_ne_zero _ zero).elim
  rcases index with _ | _ | _ | _ | index
  · -- the call of `main`
    rcases isStart
    rcases Option.map_eq_some_iff.mp step with ⟨routine, found, rfl⟩
    have inFunction := findRoutine_ne_zero shaping (by decide) found
    have room : 2 ^ 32 ≤ (m.registers .rsp).toNat := inStack
    rcases Shape.holds_entered (shaping.frame routine) (aligned rfl) (by omega)
      (layout.address ⟨0, 1⟩) with ⟨entry, isTop, alignedEntry, address, holds⟩
    rw [← shaping.entry routine inFunction] at holds
    exact .inside inFunction (.start isTop alignedEntry (resolves ⟨0, 0⟩ _ isItem) address) holds
  · rcases isStart
    exact later rfl step
  · rcases isStart
    exact later rfl step
  · rcases isStart
    rcases Option.ite_none_right_eq_some.mp step with ⟨-, ⟨⟩⟩
    exact .exited _
  · cases isStart

/-- The steps of a function. -/
theorem disciplined_inside (shaping : Shaping program) (resolves : layout.Resolves program)
    (inFunction : place.routine ≠ 0) {entry : Nat} {caller : BitVec 64}
    (suspended : Suspended shaping layout shadow entry caller m.memory)
    (holds : (shaping.shape place.routine place.index).Holds
      (shaping.frame place.routine) entry caller m)
    (inStack : (Process.running place m).InStack) {process : Process}
    (isItem : itemAt program place = some item)
    (step : Process.step program layout (.running place m) = some process) :
    Disciplined shaping layout (shadowAfter item place m shadow) process := by
  have room : 2 ^ 32 ≤ (m.registers .rsp).toNat := inStack
  have bounds := suspended.bounds
  have frameAligned := shaping.aligned place.routine
  have frameSmall := shaping.small place.routine
  have shapeStep := shaping.steps place inFunction item isItem
  simp only [Process.step, isItem] at step
  have ordinary {instr : Instruction} (isInstr : item = .instruction instr)
      (isOrdinary : instr.mnemonic.isControl = false) :
      Disciplined shaping layout (shadowAfter item place m shadow) process := by
    subst isInstr
    rcases Instruction.exec_of_step isOrdinary step with ⟨next, executed, rfl⟩
    rw [shadowAfter_of_ordinary isOrdinary]
    rcases shapeStep.exec rfl holds frameSmall (by omega) room executed with ⟨after, same⟩
    exact .inside inFunction (suspended.sameFrom same) after
  generalize isBefore : shaping.shape place.routine place.index = before at *
  generalize isAfter : shaping.shape place.routine (place.index + 1) = after at *
  cases shapeStep with
  | save | base | reserve | pad | push | release | leave | restore => exact ordinary rfl rfl
  | stay pushed isLocal =>
      cases item with
      | label => exact isLocal.elim
      | instruction instr =>
          exact ordinary rfl (Mnemonic.isControl_of_isTransfer isLocal.1)
  | label id =>
      rcases step
      refine .inside inFunction suspended ?_
      rw [Place.routine_advance, Place.advance, isAfter]
      exact holds
  | @jump mnemonic isJump id =>
      change Instruction.step program layout place m ⟨mnemonic, [.label id]⟩ = some process at step
      rw [Instruction.step_jump isJump] at step
      have stays : shadowAfter (emit mnemonic [.label id]) place m shadow = shadow := by
        simp only [List.mem_cons, List.not_mem_nil, or_false] at isJump
        rcases isJump with rfl | rfl <;> rfl
      rw [stays]
      rcases Option.bind_eq_some_iff.mp step with ⟨taken, -, step⟩
      cases taken with
      | true =>
          rcases Option.map_eq_some_iff.mp step with ⟨next, found, rfl⟩
          rcases itemAt_of_findLabel found with ⟨sameRoutine, isLabel⟩
          rw [← sameRoutine] at inFunction holds
          refine .inside inFunction suspended ?_
          rw [(shaping.shape_label inFunction isLabel).1]
          exact holds
      | false =>
          rcases step
          refine .inside inFunction suspended ?_
          rw [Place.routine_advance, Place.advance, isAfter]
          exact holds
  | ret =>
      rcases Option.map_eq_some_iff.mp step with ⟨next, found, rfl⟩
      have top : (m.registers .rsp).toNat = entry := holds.top
      have base : m.registers .rbp = caller := holds.base
      rw [MachineState.top, eq_ofNat top] at found
      have dropped : (m.drop.registers .rsp).toNat = entry + 8 := by
        change (m.registers .rsp + BitVec.ofNat 64 8).toNat = entry + 8
        rw [toNat_add_ofNat (by omega), top]
      cases suspended with
      | start isTop aligned known address =>
          rw [address, known] at found
          rcases found
          exact .start fun zero => (Nat.succ_ne_zero _ zero).elim
      | call rest inside shape isTop below isBase aligned known address saved =>
          rw [address, known] at found
          rcases found
          refine .inside inside rest ?_
          rw [shape]
          constructor
          · rw [dropped, Shape.depth, ← isTop]
            exact below
          · exact base.trans isBase
          · exact fun _ => saved
  | call aligned other =>
      rcases Option.map_eq_some_iff.mp step with ⟨routine, found, rfl⟩
      have inCallee := findRoutine_ne_zero shaping other found
      have top := holds.top
      rw [Shape.depth] at top
      have same := SameFrom.push (layout.address (place.advance 1)) (m := m) (by omega)
      rcases Shape.holds_entered (shaping.frame routine) (m := m) (by omega) (by omega)
        (layout.address (place.advance 1)) with ⟨inner, isTop, alignedInner, address, entered⟩
      rw [← shaping.entry routine inCallee] at entered
      refine .inside inCallee (.call (suspended.sameFrom (same.mono (by omega))) inFunction
        isAfter isTop top holds.base alignedInner (resolves place _ isItem) address ?_) entered
      rw [same.load (by omega) (by omega)]
      exact holds.saved Shape.noConfusion

/-- Every step keeps the discipline. -/
theorem Disciplined.step (shaping : Shaping program) (resolves : layout.Resolves program)
    {process : Process} {next : List Activation × Process}
    (disciplined : Disciplined shaping layout shadow process) (inStack : process.InStack)
    (step : shadowStep program layout (shadow, process) = some next) :
    Disciplined shaping layout next.1 next.2 := by
  cases disciplined with
  | exited => cases step
  | start aligned =>
      rcases Option.bind_eq_some_iff.mp step with ⟨item, isItem, stepped⟩
      rcases Option.bind_eq_some_iff.mp stepped with ⟨process, processStep, ⟨⟩⟩
      exact disciplined_start shaping resolves aligned inStack isItem processStep
  | inside inFunction suspended holds =>
      rcases Option.bind_eq_some_iff.mp step with ⟨item, isItem, stepped⟩
      rcases Option.bind_eq_some_iff.mp stepped with ⟨process, processStep, ⟨⟩⟩
      exact disciplined_inside shaping resolves inFunction suspended holds inStack isItem
        processStep

/-- The process at `_start`. -/
def Process.start (m : MachineState) : Process :=
  .running ⟨0, 0⟩ m

/-- A run from `_start` keeps the discipline as long as the stack does not leave its place. -/
theorem Disciplined.run (shaping : Shaping program) (resolves : layout.Resolves program)
    (aligned : 16 ∣ (m.registers .rsp).toNat) {n : Nat} {last : List Activation × Process}
    (run : iterate (shadowStep program layout) n ([], .start m) = some last)
    (inStack : ∀ k < n, ∀ visited,
      iterate (shadowStep program layout) k ([], .start m) = some visited → visited.2.InStack) :
    Disciplined shaping layout last.1 last.2 := by
  induction n generalizing last with
  | zero =>
      rcases run
      exact .start fun _ => aligned
  | succ n inductionHypothesis =>
      rw [iterate_succ] at run
      rcases Option.bind_eq_some_iff.mp run with ⟨before, earlier, step⟩
      have disciplined := inductionHypothesis earlier
        fun k less => inStack k (Nat.lt_succ_of_lt less)
      exact disciplined.step shaping resolves (inStack n (Nat.lt_succ_self n) before earlier)
        step

/-- The stack pointer at a place of the body of a function. -/
theorem Disciplined.depth (shaping : Shaping program)
    (disciplined : Disciplined shaping layout shadow (.running place m))
    (inFunction : place.routine ≠ 0) {pushed : Nat}
    (shape : shaping.shape place.routine place.index = .body pushed) :
    (m.registers .rsp).toNat + (shaping.frame place.routine + pushed) =
      (m.registers .rbp).toNat := by
  cases disciplined with
  | start => exact absurd rfl inFunction
  | inside _ suspended holds =>
      rw [shape] at holds
      have top := holds.top
      have bound := suspended.bounds.1
      rw [Shape.depth] at top
      have isBase : m.registers .rbp = BitVec.ofNat 64 _ := holds.base
      rw [isBase, BitVec.toNat_ofNat, Nat.mod_eq_of_lt (by omega)]
      omega

/-- The stack pointer is aligned at every call. -/
theorem Disciplined.aligned (shaping : Shaping program)
    (disciplined : Disciplined shaping layout shadow (.running place m)) {name : String}
    (isCall : itemAt program place = some (emit .call [.symbol name])) :
    16 ∣ (m.registers .rsp).toNat := by
  cases disciplined with
  | @start index _ aligned =>
      have isStart : startItems[index]? = some (emit .call [.symbol name]) := by
        rw [← shaping.itemAt_start, isCall]
      rcases index with _ | _ | _ | _ | index
      · exact aligned rfl
      all_goals cases isStart
  | inside inFunction suspended holds =>
      have bounds := suspended.bounds
      have frameAligned := shaping.aligned place.routine
      rcases shaping.shape_call inFunction isCall with ⟨pushed, shape, aligned⟩
      rw [shape] at holds
      have top := holds.top
      rw [Shape.depth] at top
      omega

/-- The frame of a function that calls is above the stack pointer. -/
theorem Disciplined.frame_of_call (shaping : Shaping program)
    (disciplined : Disciplined shaping layout shadow (.running place m))
    (inFunction : place.routine ≠ 0) {name : String}
    (isCall : itemAt program place = some (emit .call [.symbol name])) :
    (m.registers .rsp).toNat + shaping.frame place.routine ≤ (m.registers .rbp).toNat ∧
      (m.registers .rbp).toNat + 8 ≤ 2 ^ 64 := by
  cases disciplined with
  | start => exact absurd rfl inFunction
  | @inside _ _ entry _ _ _ suspended holds =>
      have bounds := suspended.bounds
      rcases shaping.shape_call inFunction isCall with ⟨pushed, shape, -⟩
      rw [shape] at holds
      have top := holds.top
      rw [Shape.depth] at top
      have isBase : m.registers .rbp = BitVec.ofNat 64 (entry - 8) := holds.base
      rw [isBase, BitVec.toNat_ofNat, Nat.mod_eq_of_lt (by omega)]
      omega

/-- A return goes to the place after the last call that has not returned, with the stack
pointer and the base pointer of that call. -/
theorem Disciplined.returns (shaping : Shaping program)
    (disciplined : Disciplined shaping layout shadow (.running place m))
    (isRet : itemAt program place = some (emit .ret [])) :
    ∃ call rest next, shadow = call :: rest ∧
      Process.step program layout (.running place m) = some (.running call.place next) ∧
      next.registers .rsp = call.top ∧ next.registers .rbp = call.base ∧
      next.memory = m.memory := by
  cases disciplined with
  | @start index _ aligned =>
      have isStart : startItems[index]? = some (emit .ret []) := by
        rw [← shaping.itemAt_start, isRet]
      rcases index with _ | _ | _ | _ | index <;> cases isStart
  | @inside _ _ entry caller _ inFunction suspended holds =>
      have bounds := suspended.bounds
      have shapeStep := shaping.steps place inFunction _ isRet
      have isOutside : shaping.shape place.routine place.index = .outside := by
        generalize isItem : emit .ret [] = item at shapeStep
        generalize shaping.shape place.routine place.index = before at *
        generalize shaping.shape place.routine (place.index + 1) = after at *
        cases shapeStep with
        | ret => rfl
        | stay pushed isLocal =>
            rw [← isItem] at isLocal
            cases isLocal.1
        | save | base | reserve | pad | push | release | label | leave | restore | call =>
            cases isItem
        | jump isJump => cases isItem
      rw [isOutside] at holds
      have top : (m.registers .rsp).toNat = entry := holds.top
      have base : m.registers .rbp = caller := holds.base
      have isTop {address : BitVec 64} (isTop : address.toNat = entry + 8) :
          m.drop.registers .rsp = address := by
        apply BitVec.eq_of_toNat_eq
        rw [isTop]
        change (m.registers .rsp + BitVec.ofNat 64 8).toNat = entry + 8
        rw [toNat_add_ofNat (by omega), top]
      have step {called : Place} (resolves : layout.place (layout.address called) = some called)
          (address : m.memory.load (BitVec.ofNat 64 entry) 64 = layout.address called) :
          Process.step program layout (.running place m) = some (.running called m.drop) := by
        simp only [Process.step, isRet]
        change (layout.place m.top).map _ = _
        rw [MachineState.top, eq_ofNat top, address, resolves, Option.map_some]
      cases suspended with
      | start topEq aligned resolves address =>
          exact ⟨_, _, _, rfl, step resolves address, isTop topEq, base, rfl⟩
      | call rest inside shape topEq below isBase aligned resolves address saved =>
          exact ⟨_, _, _, rfl, step resolves address, isTop topEq, base, rfl⟩

theorem shadowAfter_cases (item : Item) (place : Place) (m : MachineState)
    (shadow : List Activation) :
    shadowAfter item place m shadow = shadow ∨
      shadowAfter item place m shadow =
        ⟨place.advance 1, m.registers .rsp, m.registers .rbp⟩ :: shadow ∨
      item = emit .ret [] ∧ shadowAfter item place m shadow = shadow.tail := by
  unfold shadowAfter
  split
  · exact .inr (.inl rfl)
  · exact .inr (.inr ⟨rfl, rfl⟩)
  · exact .inl rfl

/-- While a call has not returned, its stack is kept, and it is returned to with it. -/
theorem step_below {deeper : List Activation} {call : Activation}
    (disciplined : Disciplined shaping layout (deeper ++ call :: shadow) (.running place m))
    (inStack : (Process.running place m).InStack) {after : List Activation × Process}
    (step : shadowStep program layout (deeper ++ call :: shadow, .running place m) =
      some after) :
    ∃ next last, after.2 = .running next last ∧
      SameFrom call.top.toNat m.memory last.memory ∧
      ((∃ others, after.1 = others ++ call :: shadow) ∨
        after.1 = shadow ∧ next = call.place ∧ last.registers .rsp = call.top ∧
          last.registers .rbp = call.base) := by
  rcases Option.bind_eq_some_iff.mp step with ⟨item, isItem, stepped⟩
  rcases Option.bind_eq_some_iff.mp stepped with ⟨process, processStep, ⟨⟩⟩
  have running : ∃ next last, process = .running next last ∧
      SameFrom call.top.toNat m.memory last.memory := by
    generalize waiting : deeper ++ call :: shadow = whole at disciplined
    cases disciplined with
    | start => cases deeper <;> cases waiting
    | inside inFunction suspended holds =>
        have listed : call ∈ whole := by
          rw [← waiting]
          exact List.mem_append_right _ (.head _)
        have above := suspended.le_top call listed
        rcases exists_running_inside inFunction suspended.bounds.1 holds inStack isItem processStep
          with ⟨next, last, isRunning, same, -⟩
        exact ⟨next, last, isRunning, same.mono (by omega)⟩
  rcases running with ⟨next, last, rfl, same⟩
  refine ⟨next, last, rfl, same, ?_⟩
  rcases shadowAfter_cases item place m (deeper ++ call :: shadow) with
    stays | called | ⟨isRet, returned⟩
  · exact .inl ⟨deeper, stays⟩
  · exact .inl ⟨_ :: deeper, called⟩
  · cases deeper with
    | cons _ rest => exact .inl ⟨rest, returned⟩
    | nil =>
        rw [isRet] at isItem
        rcases disciplined.returns shaping isItem with
          ⟨_, _, final, ⟨⟩, isStep, top, base, -⟩
        rw [processStep] at isStep
        rcases isStep
        exact .inr ⟨returned, rfl, top, base⟩

/-- A function is left for `_start` only to the place after the call of `main`. -/
theorem exists_running_of_disciplined (inFunction : place.routine ≠ 0)
    (disciplined : Disciplined shaping layout shadow (.running place m))
    (inStack : (Process.running place m).InStack) {process : Process}
    (step : Process.step program layout (.running place m) = some process) :
    ∃ next last, process = .running next last ∧ (next.routine = 0 → next.index = 1) := by
  cases isItem : itemAt program place with
  | none =>
      simp only [Process.step, isItem] at step
      cases step
  | some item =>
      cases disciplined with
      | start => exact absurd rfl inFunction
      | inside _ suspended holds =>
          by_cases isRet : item = emit .ret []
          · rw [isRet] at isItem
            rcases Disciplined.returns shaping (.inside inFunction suspended holds) isItem with
              ⟨call, rest, last, rfl, returned, -⟩
            rw [returned, Option.some.injEq] at step
            subst step
            refine ⟨_, last, rfl, ?_⟩
            cases suspended with
            | start => exact fun _ => rfl
            | call _ inside => exact fun isStart => absurd isStart inside
          · rcases exists_running_inside inFunction suspended.bounds.1 holds inStack isItem step
              with ⟨next, last, isRunning, -, elsewhere⟩
            exact ⟨next, last, isRunning, fun isStart => absurd isStart (elsewhere isRet)⟩

/-! ## Runs -/

/-- Every run of the process has its calls that have not returned. -/
theorem shadow_of_iterate {n : Nat} {first last : Process} (shadow : List Activation)
    (run : iterate (Process.step program layout) n first = some last) :
    ∃ after, iterate (shadowStep program layout) n (shadow, first) = some (after, last) := by
  induction n generalizing last with
  | zero =>
      rcases run
      exact ⟨shadow, rfl⟩
  | succ n inductionHypothesis =>
      rw [iterate_succ] at run
      rcases Option.bind_eq_some_iff.mp run with ⟨before, earlier, step⟩
      rcases inductionHypothesis earlier with ⟨waiting, isShadow⟩
      cases before with
      | exited => cases step
      | running place m =>
          cases isItem : itemAt program place with
          | none =>
              simp only [Process.step, isItem] at step
              cases step
          | some item =>
              refine ⟨shadowAfter item place m waiting, ?_⟩
              rw [iterate_succ, isShadow, Option.bind_some]
              simp only [shadowStep, isItem, step, Option.bind_eq_bind, Option.bind_some]
              rfl

/-- The process beside the calls that have not returned is the process. -/
theorem iterate_of_shadow {n : Nat} {first : Process} {shadow : List Activation}
    {last : List Activation × Process}
    (run : iterate (shadowStep program layout) n (shadow, first) = some last) :
    iterate (Process.step program layout) n first = some last.2 := by
  induction n generalizing last with
  | zero =>
      rcases run
      rfl
  | succ n inductionHypothesis =>
      rw [iterate_succ] at run
      rcases Option.bind_eq_some_iff.mp run with ⟨⟨waiting, before⟩, earlier, step⟩
      rw [iterate_succ, inductionHypothesis earlier, Option.bind_some]
      cases before with
      | exited => cases step
      | running place m =>
          rcases Option.bind_eq_some_iff.mp step with ⟨item, -, stepped⟩
          rcases Option.bind_eq_some_iff.mp stepped with ⟨process, processStep, ⟨⟩⟩
          exact processStep

/-- A run of the process keeps the discipline. -/
theorem Disciplined.exists_shadow (shaping : Shaping program)
    (resolves : layout.Resolves program) (aligned : 16 ∣ (m.registers .rsp).toNat) {n : Nat}
    (run : iterate (Process.step program layout) n (.start m) = some process)
    (inStack : ∀ k < n, ∀ visited,
      iterate (Process.step program layout) k (.start m) = some visited → visited.InStack) :
    ∃ shadow, iterate (shadowStep program layout) n ([], .start m) = some (shadow, process) ∧
      Disciplined shaping layout shadow process := by
  rcases shadow_of_iterate [] run with ⟨shadow, isShadow⟩
  exact ⟨shadow, isShadow, Disciplined.run shaping resolves aligned isShadow
    fun k less visited isVisited => inStack k less visited.2 (iterate_of_shadow isVisited)⟩

/-- The states between a call and its return. -/
theorem iterate_below {call : Activation} {first : MachineState} {start : Place} {n : Nat}
    {after : List Activation × Process}
    (disciplined : ∀ k ≤ n, ∀ visited,
      iterate (shadowStep program layout) k (call :: shadow, .running start first) =
        some visited →
      Disciplined shaping layout visited.1 visited.2 ∧ visited.2.InStack)
    (waiting : ∀ k ≤ n, ∀ visited,
      iterate (shadowStep program layout) k (call :: shadow, .running start first) =
        some visited → shadow.length < visited.1.length)
    (run : iterate (shadowStep program layout) n (call :: shadow, .running start first) =
      some after) :
    ∃ deeper next last, after = (deeper ++ call :: shadow, .running next last) ∧
      SameFrom call.top.toNat first.memory last.memory := by
  induction n generalizing after with
  | zero =>
      rcases run
      exact ⟨[], start, first, rfl, fun _ _ => rfl⟩
  | succ n inductionHypothesis =>
      have longer := waiting (n + 1) le_rfl after run
      rw [iterate_succ] at run
      rcases Option.bind_eq_some_iff.mp run with ⟨before, earlier, step⟩
      rcases inductionHypothesis (fun k less => disciplined k (Nat.le_succ_of_le less))
        (fun k less => waiting k (Nat.le_succ_of_le less)) earlier with
        ⟨deeper, place, last, rfl, same⟩
      rcases disciplined n (Nat.le_succ n) _ earlier with ⟨isDisciplined, inStack⟩
      rcases after with ⟨others, process⟩
      rcases step_below isDisciplined inStack step with ⟨next, final, rfl, sameStep, lower⟩
      rcases lower with ⟨deeper, rfl⟩ | ⟨rfl, -⟩
      · refine ⟨deeper, next, final, rfl, ?_⟩
        intro byte above
        rw [sameStep byte above, same byte above]
      · exact absurd longer (lt_irrefl _)

end Steps

end Sulfur.Codegen
