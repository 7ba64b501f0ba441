import Sulfur.Codegen.Return
import Sulfur.Codegen.Shapes

/-!
# Runs of linked programs

A program runs from `_start` until `main` returns there.  The functions of the program may
be any that fit in their frames, and the addresses of the instructions any that the linker
gives them.
-/

namespace Sulfur.Codegen

open Machine Ir Jump

/-! ## A linked program -/

/-- The routines are 4 GiB apart, and every item takes one address. -/
def Layout.spaced : Layout where
  address place := BitVec.ofNat 64 (place.routine * 2 ^ 32 + place.index)
  place address := some ⟨address.toNat / 2 ^ 32, address.toNat % 2 ^ 32⟩

theorem Layout.resolves_spaced {program : List Routine} (count : program.length < 2 ^ 32)
    (short : ∀ code ∈ program, code.items.length < 2 ^ 32) : Layout.spaced.Resolves program := by
  intro place name isCall
  rcases Option.bind_eq_some_iff.mp isCall with ⟨code, isCode, found⟩
  have routineBound := (List.getElem?_eq_some_iff.mp isCode).1
  have indexBound := (List.getElem?_eq_some_iff.mp found).1
  have itemsBound := short code (List.mem_of_getElem? isCode)
  have isAddress : (BitVec.ofNat 64 (place.routine * 2 ^ 32 + (place.index + 1))).toNat =
      place.routine * 2 ^ 32 + (place.index + 1) := by
    rw [BitVec.toNat_ofNat]
    exact Nat.mod_eq_of_lt (by omega)
  simp only [Layout.spaced, Place.advance, isAddress, Option.some.injEq, Place.mk.injEq]
  omega

theorem framed_widened : ∀ func ∈ [widenedCallee, widenedCaller], Framed func := by
  intro func listed
  refine ⟨?_, ?_, ?_, ?_⟩ <;> revert func
  · unfold SingleTyped
    decide
  · decide
  · decide
  · decide

/-- The assembly of both functions. -/
def widenedProgram : List EmittedFunction :=
  [widenedCallee, widenedCaller].filterMap emitDefinition

theorem emitted_widened : Emitted [widenedCallee, widenedCaller] widenedProgram :=
  .cons rfl (.cons rfl .nil)

/-- An empty stack that ends at 2 ^ 40. -/
def widenedMachine : MachineState where
  registers
    | .rsp => 0x10000000000
    | _ => 0
  memory _ := 0
  flags := none

/-- The state after a number of steps from `_start`. -/
def widenedRun (n : Nat) : Option Process :=
  iterate (Process.step (routines widenedProgram) .spaced) n (.start widenedMachine)

/-- Where the process is. -/
def Process.place? : Process → Option Place
  | .running place _ => some place
  | .exited _ => none

theorem exists_running {process : Option Process} {place : Place}
    (isPlace : process.bind Process.place? = some place) :
    ∃ m, process = some (.running place m) := by
  rcases Option.bind_eq_some_iff.mp isPlace with ⟨running | exited, rfl, isPlace⟩
  · rcases isPlace
    exact ⟨_, rfl⟩
  · cases isPlace

instance (process : Process) : Decidable process.InStack :=
  match process with
  | .running _ m => inferInstanceAs (Decidable (2 ^ 32 ≤ (m.registers .rsp).toNat))
  | .exited _ => .isTrue trivial

set_option maxRecDepth 4000 in
theorem exited_widenedRun : (widenedRun 25).any (fun process => process.place? = none) := by
  decide

set_option maxRecDepth 4000 in
theorem inStack_widenedRun : ∀ k < 25, ∀ visited ∈ widenedRun k, visited.InStack := by
  decide

/-- The run of the process beside the calls that have not returned. -/
def widenedShadow (n : Nat) : Option (List Activation × Process) :=
  iterate (shadowStep (routines widenedProgram) .spaced) n ([], .start widenedMachine)

theorem place_widenedShadow :
    (widenedShadow 8).bind (fun visited => visited.2.place?) = some ⟨2, 7⟩ := by
  decide

set_option maxRecDepth 4000 in
theorem length_widenedShadow :
    (∀ j < 8, ∀ visited ∈ widenedShadow (8 + (j + 1)), 1 < visited.1.length) ∧
      (widenedShadow 8).map (fun visited => visited.1.length) = some 1 ∧
      (widenedShadow (8 + 9)).map (fun visited => visited.1.length) = some 1 := by
  decide

/-! ## Calls -/

/-- Every run of a linked program keeps the stack discipline, as long as the stack stays in
its place: calls are aligned, a return goes back to its call, and the arguments are
released before control flows join. -/
theorem calls_return {functions : List IrFunction} {program : List EmittedFunction}
    (framed : ∀ func ∈ functions, Framed func) (emitted : Emitted functions program)
    {layout : Layout} (resolves : layout.Resolves (routines program)) {m : MachineState}
    (aligned : 16 ∣ (m.registers .rsp).toNat) {n : Nat} {place : Place} {next : MachineState}
    (run : iterate (Process.step (routines program) layout) n (.start m) =
      some (.running place next))
    (inStack : ∀ k < n, ∀ visited,
      iterate (Process.step (routines program) layout) k (.start m) = some visited →
        visited.InStack) :
    ∃ shadow, iterate (shadowStep (routines program) layout) n ([], .start m) =
        some (shadow, .running place next) ∧
      (∀ name, itemAt (routines program) place = some (emit .call [.symbol name]) →
        16 ∣ (next.registers .rsp).toNat) ∧
      (itemAt (routines program) place = some (emit .ret []) →
        ∃ call rest last, shadow = call :: rest ∧
          Process.step (routines program) layout (.running place next) =
            some (.running call.place last) ∧
          last.registers .rsp = call.top ∧ last.registers .rbp = call.base ∧
          last.memory = next.memory) ∧
      ∀ id, itemAt (routines program) place = some (.label id) →
        ∃ index func, place.routine = index + 1 ∧ functions[index]? = some func ∧
          (next.registers .rsp).toNat + frameSize (functionMap func) =
            (next.registers .rbp).toNat := by
  rcases exists_shaping framed emitted with ⟨shaping, frames⟩
  rcases Disciplined.exists_shadow shaping resolves aligned run inStack with
    ⟨shadow, isShadow, disciplined⟩
  refine ⟨shadow, isShadow, fun name => disciplined.aligned shaping,
    disciplined.returns shaping, ?_⟩
  intro id isLabel
  rcases Option.bind_eq_some_iff.mp isLabel with ⟨code, isCode, isItem⟩
  have inFunction : place.routine ≠ 0 := by
    intro isStart
    rw [isStart] at isCode
    rcases isCode
    rcases place with ⟨routine, index⟩
    rcases index with _ | _ | _ | _ | index <;> cases isItem
  rcases Nat.exists_eq_succ_of_ne_zero inFunction with ⟨position, isPosition⟩
  have bound := (List.getElem?_eq_some_iff.mp isCode).1
  have inFunctions : position < functions.length := by
    rw [emitted.length_eq]
    rw [isPosition, routines, List.length_cons, List.length_map] at bound
    exact Nat.lt_of_succ_lt_succ bound
  have isFunc := List.getElem?_eq_getElem inFunctions
  have depth := disciplined.depth shaping inFunction (shaping.shape_label inFunction isLabel).1
  rw [isPosition, frames position _ isFunc, Nat.add_zero] at depth
  exact ⟨position, _, isPosition, isFunc, depth⟩

/-- `fn f() i32 { return 1; }` -/
def branchingCallee : IrFunction where
  name := "f"
  parameters := []
  returnType := .i32
  operations := [⟨.ret, .immediate .i32 "1", .none, .none⟩]
  nextTemp := 0
  qualifiers := default
  defined := true

/-- `fn main() i32 { mut i32 a = f(); if (a < 2) { a = 3; } return a; }` -/
def branchingCaller : IrFunction where
  name := "main"
  parameters := []
  returnType := .i32
  operations := [⟨.call, .variable .i32 "a@0", .function .i32 "f", .none⟩,
    ⟨.binary .relationalLess, .temporary .bool 0, .variable .i32 "a@0", .immediate .i32 "2"⟩,
    ⟨.jmpCond, .label 0, .temporary .bool 0, .none⟩,
    ⟨.assign, .variable .i32 "a@0", .immediate .i32 "3", .none⟩,
    ⟨.label, .label 0, .none, .none⟩, ⟨.ret, .variable .i32 "a@0", .none, .none⟩]
  nextTemp := 1
  qualifiers := default
  defined := true

/-- The code of the two functions. -/
def branchingProgram : List EmittedFunction :=
  [branchingCallee, branchingCaller].filterMap emitDefinition

theorem framed_branching : ∀ func ∈ [branchingCallee, branchingCaller], Framed func := by
  intro func listed
  refine ⟨?_, ?_, ?_, ?_⟩ <;> revert func
  · unfold SingleTyped
    decide
  · decide
  · decide
  · decide

theorem emitted_branching : Emitted [branchingCallee, branchingCaller] branchingProgram :=
  .cons rfl (.cons rfl .nil)

/-- The run of the two functions from an empty stack. -/
def branchingRun (n : Nat) : Option Process :=
  iterate (Process.step (routines branchingProgram) .spaced) n (.start widenedMachine)

set_option maxRecDepth 4000 in
theorem inStack_branchingRun : ∀ k < 22, ∀ visited ∈ branchingRun k, visited.InStack := by
  decide

/-- `main` calls `f`, `f` returns, and the condition holds. -/
theorem place_branchingRun :
    (branchingRun 4).bind Process.place? = some ⟨2, 3⟩ ∧
      (branchingRun 11).bind Process.place? = some ⟨1, 6⟩ ∧
      (branchingRun 22).bind Process.place? = some ⟨2, 14⟩ := by
  decide

theorem calls_return_branching :
    (∃ next, branchingRun 4 = some (.running ⟨2, 3⟩ next) ∧
      16 ∣ (next.registers .rsp).toNat) ∧
    (∃ next call rest last,
      branchingRun 11 = some (.running ⟨1, 6⟩ next) ∧
      iterate (shadowStep (routines branchingProgram) .spaced) 11 ([], .start widenedMachine) =
        some (call :: rest, .running ⟨1, 6⟩ next) ∧
      Process.step (routines branchingProgram) .spaced (.running ⟨1, 6⟩ next) =
        some (.running call.place last) ∧
      last.registers .rsp = call.top ∧ last.registers .rbp = call.base ∧
      last.memory = next.memory) ∧
    ∃ next, branchingRun 22 = some (.running ⟨2, 14⟩ next) ∧
      (next.registers .rsp).toNat + frameSize (functionMap branchingCaller) =
        (next.registers .rbp).toNat := by
  have discipline {n : Nat} (short : n ≤ 22) {place : Place} {next : MachineState}
      (run : branchingRun n = some (.running place next)) :=
    calls_return framed_branching emitted_branching
      (Layout.resolves_spaced (by decide) (by decide)) (by decide) run
      fun k less visited isVisited =>
        inStack_branchingRun k (less.trans_le short) visited isVisited
  rcases place_branchingRun with ⟨atCall, atReturn, atLabel⟩
  refine ⟨?_, ?_, ?_⟩
  · rcases exists_running atCall with ⟨next, run⟩
    rcases discipline (by decide) run with ⟨shadow, -, aligned, -⟩
    exact ⟨next, run, aligned "f" rfl⟩
  · rcases exists_running atReturn with ⟨next, run⟩
    rcases discipline (by decide) run with ⟨shadow, isShadow, -, returns, -⟩
    rcases returns rfl with ⟨call, rest, last, rfl, step, top, base, memory⟩
    exact ⟨next, call, rest, last, run, isShadow, step, top, base, memory⟩
  · rcases exists_running atLabel with ⟨next, run⟩
    rcases discipline (by decide) run with ⟨shadow, -, -, -, depth⟩
    rcases depth 0 rfl with ⟨index, func, isRoutine, isFunc, isTop⟩
    obtain rfl : 1 = index := Nat.succ.inj isRoutine
    obtain rfl := Option.some.inj isFunc
    exact ⟨next, run, isTop⟩

/-- When a call returns, the caller has its stack as it left it: the stack pointer, the base
pointer, and the memory above the stack pointer with all of its variables and temporaries. -/
theorem call_keeps_stack {functions : List IrFunction} {program : List EmittedFunction}
    (framed : ∀ func ∈ functions, Framed func) (emitted : Emitted functions program)
    {layout : Layout} (resolves : layout.Resolves (routines program)) {m : MachineState}
    (aligned : 16 ∣ (m.registers .rsp).toNat) {n k : Nat} {shadow after : List Activation}
    {place : Place} {atCall : MachineState} {process : Process} {name : String}
    (run : iterate (shadowStep (routines program) layout) n ([], .start m) =
      some (shadow, .running place atCall))
    (isCall : itemAt (routines program) place = some (emit .call [.symbol name]))
    (later : iterate (shadowStep (routines program) layout) (k + 1)
      (shadow, .running place atCall) = some (after, process))
    (waiting : ∀ j < k, ∀ visited,
      iterate (shadowStep (routines program) layout) (j + 1) (shadow, .running place atCall) =
        some visited → shadow.length < visited.1.length)
    (returned : after.length ≤ shadow.length)
    (inStack : ∀ j < n + (k + 1), ∀ visited,
      iterate (Process.step (routines program) layout) j (.start m) = some visited →
        visited.InStack) :
    ∃ last, after = shadow ∧ process = .running (place.advance 1) last ∧
      last.registers .rsp = atCall.registers .rsp ∧
      last.registers .rbp = atCall.registers .rbp ∧
      (∀ byte : BitVec 64, (atCall.registers .rsp).toNat ≤ byte.toNat →
        last.memory byte = atCall.memory byte) ∧
      ∀ index func, place.routine = index + 1 → functions[index]? = some func →
        frameStore (functionMap func) last = frameStore (functionMap func) atCall := by
  rcases exists_shaping framed emitted with ⟨shaping, frames⟩
  have visits {j : Nat} (less : j < n + (k + 1)) {visited : List Activation × Process}
      (isVisited : iterate (shadowStep (routines program) layout) j ([], .start m) =
        some visited) : Disciplined shaping layout visited.1 visited.2 ∧ visited.2.InStack :=
    ⟨Disciplined.run shaping resolves aligned isVisited fun i below earlier isEarlier =>
      inStack i (below.trans less) earlier.2 (iterate_of_shadow isEarlier),
      inStack j less visited.2 (iterate_of_shadow isVisited)⟩
  have room := (visits (by omega) run).2
  change 2 ^ 32 ≤ (atCall.registers .rsp).toNat at room
  -- the call itself
  have enters {visited : List Activation × Process}
      (step : shadowStep (routines program) layout (shadow, .running place atCall) =
        some visited) :
      ∃ routine, visited = (⟨place.advance 1, atCall.registers .rsp, atCall.registers .rbp⟩ ::
        shadow, .running ⟨routine, 0⟩ (atCall.push (layout.address (place.advance 1)))) := by
    simp only [shadowStep, isCall, Process.step] at step
    rcases Option.bind_eq_some_iff.mp step with ⟨_, ⟨⟩, stepped⟩
    rcases Option.bind_eq_some_iff.mp stepped with ⟨_, called, ⟨⟩⟩
    rcases Option.map_eq_some_iff.mp called with ⟨routine, -, rfl⟩
    exact ⟨routine, rfl⟩
  have pushed := SameFrom.push (m := atCall) (layout.address (place.advance 1)) (by omega)
  rw [iterate] at later
  rcases Option.bind_eq_some_iff.mp later with ⟨entered, called, rest⟩
  rcases enters called with ⟨routine, rfl⟩
  rcases k with _ | k
  · rcases rest
    exact absurd returned (by simp)
  · rw [iterate_succ] at rest
    rcases Option.bind_eq_some_iff.mp rest with ⟨before, inside, step⟩
    have fromCall {j : Nat} {visited : List Activation × Process}
        (isVisited : iterate (shadowStep (routines program) layout) j
          (⟨place.advance 1, atCall.registers .rsp, atCall.registers .rbp⟩ :: shadow,
            .running ⟨routine, 0⟩ (atCall.push (layout.address (place.advance 1)))) =
          some visited) :
        iterate (shadowStep (routines program) layout) (j + 1) (shadow, .running place atCall) =
          some visited := by
      rw [iterate, called]
      exact isVisited
    have reached {j : Nat} {visited : List Activation × Process}
        (isVisited : iterate (shadowStep (routines program) layout) (j + 1)
          (shadow, .running place atCall) = some visited) :
        iterate (shadowStep (routines program) layout) (n + (j + 1)) ([], .start m) =
          some visited := by
      rw [iterate_add, run]
      exact isVisited
    rcases iterate_below
      (fun j less visited isVisited => visits (by omega) (reached (fromCall isVisited)))
      (fun j less visited isVisited => waiting j (by omega) visited (fromCall isVisited)) inside
      with ⟨deeper, next, last, rfl, same⟩
    rcases visits (by omega) (reached (fromCall inside)) with ⟨disciplined, inside⟩
    rcases step_below disciplined inside step with ⟨_, final, rfl, sameStep, lower⟩
    rcases lower with ⟨others, rfl⟩ | ⟨rfl, rfl, top, base⟩
    · rw [List.length_append, List.length_cons] at returned
      omega
    · have kept : SameFrom (atCall.registers .rsp).toNat atCall.memory final.memory := by
        intro byte above
        rw [sameStep byte above, same byte above, pushed byte above]
      refine ⟨final, rfl, rfl, top, base, kept, ?_⟩
      intro index func isRoutine isFunc
      have isFrame := (visits (by omega) run).1.frame_of_call shaping (by omega) isCall
      rw [isRoutine, frames index func isFunc] at isFrame
      exact frameStore_congr (stackPopulate_descending _ _) base kept isFrame.1 isFrame.2

theorem call_keeps_stack_widened :
    ∃ shadow atCall last,
      widenedShadow 8 = some (shadow, .running ⟨2, 7⟩ atCall) ∧
      widenedShadow (8 + 9) = some (shadow, .running ⟨2, 8⟩ last) ∧
      last.registers .rsp = atCall.registers .rsp ∧
      last.registers .rbp = atCall.registers .rbp ∧
      (∀ byte : BitVec 64, (atCall.registers .rsp).toNat ≤ byte.toNat →
        last.memory byte = atCall.memory byte) ∧
      ∀ index func, 2 = index + 1 → [widenedCallee, widenedCaller][index]? = some func →
        frameStore (functionMap func) last = frameStore (functionMap func) atCall := by
  rcases length_widenedShadow with ⟨waiting, first, returned⟩
  rcases Option.bind_eq_some_iff.mp place_widenedShadow with ⟨⟨shadow, process⟩, run, isPlace⟩
  rcases Option.map_eq_some_iff.mp returned with ⟨⟨after, later⟩, isLater, isLength⟩
  rw [run] at first
  have length : shadow.length = 1 := Option.some.inj first
  cases process with
  | exited => cases isPlace
  | running place atCall =>
      rcases isPlace
      have fromCall (j : Nat) : iterate (shadowStep (routines widenedProgram) .spaced) j
          (shadow, .running ⟨2, 7⟩ atCall) = widenedShadow (8 + j) := by
        rw [widenedShadow, iterate_add, ← widenedShadow, run, Option.bind_some]
      rcases call_keeps_stack framed_widened emitted_widened
          (Layout.resolves_spaced (by decide) (by decide)) (by decide) run (show _ = _ from rfl)
          ((fromCall 9).trans isLater)
          (fun j less visited isVisited => by
            rw [length]
            exact waiting j less visited ((fromCall (j + 1)).symm.trans isVisited))
          (by rw [length]; exact isLength.le)
          (fun j less visited isVisited =>
            inStack_widenedRun j (less.trans (by decide)) visited isVisited) with
        ⟨last, rfl, rfl, kept⟩
      exact ⟨_, atCall, last, run, isLater, kept⟩

/-! ## Exit -/

section Steps

variable {program : List Routine} {layout : Layout} {shaping : Shaping program}
  {place : Place} {m : MachineState} {shadow : List Activation}

/-- The last instructions of `_start` are reached from the ones before them. -/
theorem exec_of_running_start (disciplined : Disciplined shaping layout shadow (.running place m))
    (inStack : (Process.running place m).InStack) {index : Nat} {last : MachineState}
    (step : Process.step program layout (.running place m) =
      some (.running ⟨0, index + 2⟩ last)) :
    place = ⟨0, index + 1⟩ ∧ ∃ instr, startItems[index + 1]? = some (.instruction instr) ∧
      instr.exec (fun _ _ => none) m = some last := by
  cases disciplined with
  | inside inFunction suspended holds =>
      rcases exists_running_of_disciplined inFunction (.inside inFunction suspended holds) inStack
        step with ⟨next, last, isRunning, returned⟩
      rcases isRunning
      cases returned rfl
  | @start start =>
      rw [Process.step, shaping.itemAt_start] at step
      rcases start with _ | _ | _ | _ | start
      · rcases Option.map_eq_some_iff.mp step with ⟨routine, -, same⟩
        cases same
      · rcases Instruction.exec_of_step rfl step with ⟨next, executed, same⟩
        rcases same
        exact ⟨rfl, _, rfl, executed⟩
      · rcases Instruction.exec_of_step rfl step with ⟨next, executed, same⟩
        rcases same
        exact ⟨rfl, _, rfl, executed⟩
      · rcases Option.ite_none_right_eq_some.mp step with ⟨-, ⟨⟩⟩
      · cases step

/-- Only the last instruction of `_start` exits. -/
theorem place_of_exited (disciplined : Disciplined shaping layout shadow (.running place m))
    (inStack : (Process.running place m).InStack) {status : BitVec 32}
    (step : Process.step program layout (.running place m) = some (.exited status)) :
    place = ⟨0, 3⟩ ∧ m.read .edi 32 = status := by
  cases disciplined with
  | inside inFunction suspended holds =>
      rcases exists_running_of_disciplined inFunction (.inside inFunction suspended holds) inStack
        step with ⟨next, last, isRunning, -⟩
      cases isRunning
  | @start start =>
      rw [Process.step, shaping.itemAt_start] at step
      rcases start with _ | _ | _ | _ | start
      · rcases Option.map_eq_some_iff.mp step with ⟨routine, -, same⟩
        cases same
      · rcases Instruction.exec_of_step rfl step with ⟨next, -, same⟩
        cases same
      · rcases Instruction.exec_of_step rfl step with ⟨next, -, same⟩
        cases same
      · rcases Option.ite_none_right_eq_some.mp step with ⟨-, same⟩
        rcases same
        exact ⟨rfl, rfl⟩
      · cases step

end Steps

/-- A linked program exits only after `main` has returned to `_start`, and its status is the
value that `main` returned. -/
theorem exit_status {functions : List IrFunction} {program : List EmittedFunction}
    (framed : ∀ func ∈ functions, Framed func) (emitted : Emitted functions program)
    {layout : Layout} (resolves : layout.Resolves (routines program)) {m : MachineState}
    (aligned : 16 ∣ (m.registers .rsp).toNat) {n : Nat} {status : BitVec 32}
    (run : iterate (Process.step (routines program) layout) n (.start m) =
      some (.exited status))
    (inStack : ∀ k < n, ∀ visited,
      iterate (Process.step (routines program) layout) k (.start m) = some visited →
        visited.InStack) :
    ∃ k last, n = k + 3 ∧
      iterate (shadowStep (routines program) layout) k ([], .start m) =
        some ([], .running ⟨0, 1⟩ last) ∧
      last.read .eax 32 = status := by
  rcases exists_shaping framed emitted with ⟨shaping, -⟩
  -- the state before a step, with its discipline
  have before {k : Nat} (less : k < n) {process : Process}
      (run : iterate (Process.step (routines program) layout) (k + 1) (.start m) = some process) :
      ∃ shadow place last,
        iterate (Process.step (routines program) layout) k (.start m) =
          some (.running place last) ∧
        iterate (shadowStep (routines program) layout) k ([], .start m) =
          some (shadow, .running place last) ∧
        Disciplined shaping layout shadow (.running place last) ∧
        (Process.running place last).InStack ∧
        Process.step (routines program) layout (.running place last) = some process := by
    rw [iterate_succ] at run
    rcases Option.bind_eq_some_iff.mp run with ⟨middle, earlier, step⟩
    cases middle with
    | exited => cases step
    | running place last =>
        rcases Disciplined.exists_shadow shaping resolves aligned earlier
          (fun j below => inStack j (below.trans less)) with ⟨shadow, isShadow, disciplined⟩
        exact ⟨shadow, place, last, earlier, isShadow, disciplined, inStack k less _ earlier, step⟩
  rcases n with _ | _ | _ | k
  · cases run
  · rcases before (Nat.lt_succ_self _) run with
      ⟨shadow, place, last, earlier, -, disciplined, stays, step⟩
    rcases earlier
    cases (place_of_exited disciplined stays step).1
  · rcases before (Nat.lt_succ_self _) run with
      ⟨shadow, place, last, earlier, -, disciplined, stays, step⟩
    rcases (place_of_exited disciplined stays step).1
    rcases before (by omega) earlier with ⟨shadow, place, first, start, -, disciplined, stays, step⟩
    rcases start
    cases (exec_of_running_start disciplined stays step).1
  · rcases before (Nat.lt_succ_self _) run with
      ⟨shadow, place, third, earlier, -, disciplined, stays, step⟩
    rcases place_of_exited disciplined stays step with ⟨rfl, isStatus⟩
    rcases before (by omega) earlier with
      ⟨shadow, place, second, earlier, -, disciplined, stays, step⟩
    rcases exec_of_running_start disciplined stays step with ⟨rfl, _, ⟨⟩, numbered⟩
    rcases before (by omega) earlier with
      ⟨shadow, place, first, -, isShadow, disciplined, stays, step⟩
    rcases exec_of_running_start disciplined stays step with ⟨rfl, _, ⟨⟩, moved⟩
    cases disciplined with
    | inside inFunction => exact absurd rfl inFunction
    | start =>
        refine ⟨k, first, rfl, isShadow, ?_⟩
        have isSecond : second = first.write .edi (first.read .eax 32) :=
          (Option.some.inj moved).symm
        have isThird : third = second.write .rax (BitVec.ofInt 64 (decimal "60")) :=
          (Option.some.inj numbered).symm
        have kept : third.read .edi 32 = second.read .edi 32 := by
          rw [isThird]
          exact second.read_write_of_ne (by decide) _
        have copied : second.read .edi 32 = first.read .eax 32 := by
          rw [isSecond, first.read_write .edi .edi rfl rfl (fun _ => rfl) (by decide) le_rfl,
            BitVec.setWidth_eq]
        rw [← isStatus, kept, copied]

theorem exit_status_widened :
    ∃ status, widenedRun 25 = some (.exited status) ∧
      ∃ k last, 25 = k + 3 ∧
        iterate (shadowStep (routines widenedProgram) .spaced) k ([], .start widenedMachine) =
          some ([], .running ⟨0, 1⟩ last) ∧
        last.read .eax 32 = status := by
  rcases (Option.any_eq_true _ _).mp exited_widenedRun with ⟨process, run, isExited⟩
  cases process with
  | running => cases isExited
  | exited status =>
      exact ⟨status, run, exit_status framed_widened emitted_widened
        (Layout.resolves_spaced (by decide) (by decide)) (by decide) run inStack_widenedRun⟩

end Sulfur.Codegen
