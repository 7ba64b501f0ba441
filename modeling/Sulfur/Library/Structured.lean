import Sulfur.Library.Jump

/-!
# Structured programs on a jump machine

Trees of sequences, branches and loops are lowered to flat programs with labels.
Their structured execution is a function with fuel for the iterations of loops.
The flat program ends, returns or diverges exactly when the tree does, whatever
the operations inside mean.
-/

namespace Sulfur.Structured

open Jump

/-- A structured program.  The labels are those that its lowering will use; the
structured execution does not read them. -/
inductive Tree (Op Test Value Label : Type*)
  | straight (ops : List Op)
  | seq (first second : Tree Op Test Value Label)
  | ifThen (ops : List Op) (test : Test) (elseLabel : Label)
      (branch : Tree Op Test Value Label)
  | ifThenElse (ops : List Op) (test : Test) (elseLabel endLabel : Label)
      (branchThen branchElse : Tree Op Test Value Label)
  | loop (ops : List Op) (test : Test) (startLabel endLabel : Label)
      (body : Tree Op Test Value Label)
  | ret (ops : List Op) (value : Value)

/-- How a structured execution ends, if it does. -/
inductive Outcome (State Result : Type*)
  | normal (state : State)
  | returned (result : Result) (state : State)
  | stuck

section Execution

variable {Op Test Value Label State Result : Type*}

/-- Go on after a normal end.  No outcome means that the fuel ran out. -/
def andThen (first : Option (Outcome State Result))
    (next : State → Option (Outcome State Result)) :
    Option (Outcome State Result) :=
  match first with
  | some (.normal state) => next state
  | other => other

/-- Go on after a condition. -/
def choose (condition : Option (Bool × State))
    (whenTrue whenFalse : State → Option (Outcome State Result)) :
    Option (Outcome State Result) :=
  match condition with
  | none => some .stuck
  | some (true, after) => whenTrue after
  | some (false, after) => whenFalse after

variable (meaning : Meaning Op Test Value State Result)

/-- Execute a list of operations.  `none` is a failure. -/
def execOps : List Op → State → Option State
  | [], state => some state
  | op :: rest, state => (meaning.exec op state).bind (execOps rest)

/-- Run the code of a condition and test its value. -/
def evalTest (ops : List Op) (test : Test) (state : State) :
    Option (Bool × State) :=
  (execOps meaning ops state).bind fun after =>
    (meaning.test test after).map (·, after)

/-- A loop with fuel for its iterations. -/
def execLoop (condition : State → Option (Bool × State))
    (body : State → Option (Outcome State Result)) :
    Nat → State → Option (Outcome State Result)
  | 0, _ => none
  | fuel + 1, state =>
      choose (condition state)
        (fun after => andThen (body after) (execLoop condition body fuel))
        (fun after => some (.normal after))

/-- The structured execution. -/
def Tree.exec (fuel : Nat) :
    Tree Op Test Value Label → State → Option (Outcome State Result)
  | .straight ops, state =>
      some (((execOps meaning ops state).map .normal).getD .stuck)
  | .seq first second, state =>
      andThen (first.exec fuel state) (second.exec fuel)
  | .ifThen ops test _ branch, state =>
      choose (evalTest meaning ops test state) (branch.exec fuel)
        (fun after => some (.normal after))
  | .ifThenElse ops test _ _ branchThen branchElse, state =>
      choose (evalTest meaning ops test state) (branchThen.exec fuel)
        (branchElse.exec fuel)
  | .loop ops test _ _ body, state =>
      execLoop (evalTest meaning ops test) (body.exec fuel) fuel state
  | .ret ops value, state =>
      let returned := (execOps meaning ops state).bind fun after =>
        (meaning.result value after).map (Outcome.returned · after)
      some (returned.getD .stuck)

/-- The flat program of a tree. -/
def Tree.lower :
    Tree Op Test Value Label → List (Instr Op Test Value Label)
  | .straight ops => ops.map .op
  | .seq first second => first.lower ++ second.lower
  | .ifThen ops test elseLabel branch =>
      ops.map .op ++ .jumpUnless elseLabel test :: branch.lower ++
        [.label elseLabel]
  | .ifThenElse ops test elseLabel endLabel branchThen branchElse =>
      ops.map .op ++ .jumpUnless elseLabel test :: branchThen.lower ++
        [.jump endLabel, .label elseLabel] ++ branchElse.lower ++
        [.label endLabel]
  | .loop ops test startLabel endLabel body =>
      .label startLabel :: ops.map .op ++
        .jumpUnless endLabel test :: body.lower ++
        [.jump startLabel, .label endLabel]
  | .ret ops value => ops.map .op ++ [.ret value]

end Execution

/-! ## Simulation -/

section Simulation

variable {Op Test Value Label State Result : Type*} [DecidableEq Label]
  {meaning : Meaning Op Test Value State Result}
  {code : List (Instr Op Test Value Label)}

/-- The machine does from a position what an outcome says: it goes on to the
given end, returns, gets stuck inside the program, or still runs after a number
of steps. -/
def Simulates (meaning : Meaning Op Test Value State Result)
    (code : List (Instr Op Test Value Label)) (source : Config State Result)
    (finish least : Nat) : Option (Outcome State Result) → Prop
  | some (.normal state) =>
      Reaches (step meaning code) source (.running finish state)
  | some (.returned result state) =>
      Reaches (step meaning code) source (.returned result state)
  | some .stuck =>
      ∃ pc state, pc < code.length ∧
        Reaches (step meaning code) source (.running pc state) ∧
        Halted (step meaning code) (.running pc state)
  | none => (iterate (step meaning code) least source).isSome

namespace Simulates

variable {source middle : Config State Result} {finish least : Nat}
  {outcome : Option (Outcome State Result)}

/-- A run in front of a simulation. -/
theorem of_iterate {n : Nat}
    (run : iterate (step meaning code) n source = some middle)
    (rest : Simulates meaning code middle finish least outcome) :
    Simulates meaning code source finish (n + least) outcome := by
  have front : Reaches (step meaning code) source middle := ⟨n, run⟩
  match outcome, rest with
  | some (.normal state), rest => exact front.trans rest
  | some (.returned result state), rest => exact front.trans rest
  | some .stuck, ⟨pc, state, inside, rest, halted⟩ =>
      exact ⟨pc, state, inside, front.trans rest, halted⟩
  | none, rest =>
      change (iterate _ _ _).isSome
      rw [iterate_add, run]
      exact rest

theorem weaken {fewer : Nat} (shorter : fewer ≤ least)
    (simulates : Simulates meaning code source finish least outcome) :
    Simulates meaning code source finish fewer outcome := by
  match outcome, simulates with
  | some (.normal state), simulates => exact simulates
  | some (.returned result state), simulates => exact simulates
  | some .stuck, simulates => exact simulates
  | none, simulates => exact isSome_iterate_of_le shorter simulates

theorem of_reaches (run : Reaches (step meaning code) source middle)
    (rest : Simulates meaning code middle finish least outcome) :
    Simulates meaning code source finish least outcome := by
  obtain ⟨n, run⟩ := run
  exact (of_iterate run rest).weaken (Nat.le_add_left _ _)

/-- A simulation goes on where a normal end leaves it. -/
theorem andThen {half : Nat} {next : State → Option (Outcome State Result)}
    (first : Simulates meaning code source half least outcome)
    (rest : ∀ state, outcome = some (.normal state) →
      Simulates meaning code (.running half state) finish least (next state)) :
    Simulates meaning code source finish least
      (Structured.andThen outcome next) := by
  match outcome, first with
  | some (.normal state), first => exact of_reaches first (rest state rfl)
  | some (.returned result state), first => exact first
  | some .stuck, first => exact first
  | none, first => exact first

/-- A simulation whose end runs on to a later one. -/
theorem extend {half : Nat}
    (first : Simulates meaning code source half least outcome)
    (rest : ∀ state, Reaches (step meaning code) (.running half state)
      (.running finish state)) :
    Simulates meaning code source finish least outcome := by
  match outcome, first with
  | some (.normal state), first => exact first.trans (rest state)
  | some (.returned result state), first => exact first
  | some .stuck, first => exact first
  | none, first => exact first

end Simulates

variable {pc : Nat} {rest : List (Instr Op Test Value Label)}

/-- Straight code runs through, or gets stuck on the way. -/
theorem execOps_reaches {ops : List Op} (here : At code pc (ops.map .op))
    {state after : State} (run : execOps meaning ops state = some after) :
    Reaches (step meaning code) (.running pc state)
      (.running (pc + ops.length) after) := by
  induction ops generalizing pc state with
  | nil =>
      obtain rfl := Option.some.inj run
      exact Reaches.refl _
  | cons op ops inductionHypothesis =>
      obtain ⟨middle, first, others⟩ := Option.bind_eq_some_iff.mp run
      have one : step meaning code (.running pc state) =
          some (.running (pc + 1) middle) := by
        simp [step, here.getElem?, first]
      have more := inductionHypothesis here.tail others
      rw [List.length_cons, Nat.add_comm ops.length, ← Nat.add_assoc]
      exact (Reaches.single one).trans more

theorem execOps_stuck {ops : List Op} (here : At code pc (ops.map .op))
    {state : State} (run : execOps meaning ops state = none) :
    ∃ stop after, stop < code.length ∧
      Reaches (step meaning code) (.running pc state) (.running stop after) ∧
      Halted (step meaning code) (.running stop after) := by
  induction ops generalizing pc state with
  | nil => cases run
  | cons op ops inductionHypothesis =>
      cases first : meaning.exec op state with
      | none =>
          refine ⟨pc, state, here.lt_length, Reaches.refl _, ?_⟩
          simp [Halted, step, here.getElem?, first]
      | some middle =>
          have others : execOps meaning ops middle = none := by
            simpa [execOps, first] using run
          obtain ⟨stop, after, inside, more, halted⟩ :=
            inductionHypothesis here.tail others
          have one : step meaning code (.running pc state) =
              some (.running (pc + 1) middle) := by
            simp [step, here.getElem?, first]
          exact ⟨stop, after, inside, (Reaches.single one).trans more, halted⟩

variable (meaning) in
theorem step_label {label : Label} (here : At code pc (.label label :: rest))
    (state : State) :
    step meaning code (.running pc state) = some (.running (pc + 1) state) := by
  simp [step, here.getElem?]

variable (meaning) in
theorem step_jump (nodup : (labelsOf code).Nodup) {label : Label}
    (here : At code pc (.jump label :: rest)) {there : Nat}
    {others : List (Instr Op Test Value Label)}
    (goal : At code there (.label label :: others)) (state : State) :
    step meaning code (.running pc state) = some (.running there state) := by
  simp [step, here.getElem?, goal.target_eq nodup]

/-- A condition with the jump behind it. -/
theorem evalTest_reaches (nodup : (labelsOf code).Nodup) {ops : List Op}
    {test : Test} {label : Label}
    (here : At code pc (ops.map .op ++ .jumpUnless label test :: rest))
    {there : Nat} {others : List (Instr Op Test Value Label)}
    (goal : At code there (.label label :: others)) {state after : State}
    {holds : Bool} (run : evalTest meaning ops test state = some (holds, after)) :
    Reaches (step meaning code) (.running pc state)
      (.running (if holds then pc + ops.length + 1 else there) after) := by
  obtain ⟨middle, opsRun, tested⟩ := Option.bind_eq_some_iff.mp run
  obtain ⟨found, testRun, pair⟩ := Option.map_eq_some_iff.mp tested
  obtain ⟨rfl, rfl⟩ := Prod.mk.inj pair
  have jump := here.right
  rw [List.length_map] at jump
  refine (execOps_reaches here.left opsRun).trans (.single ?_)
  cases found <;> simp [step, jump.getElem?, testRun, goal.target_eq nodup]

theorem evalTest_stuck {ops : List Op} {test : Test} {label : Label}
    (here : At code pc (ops.map .op ++ .jumpUnless label test :: rest))
    {state : State} (run : evalTest meaning ops test state = none) :
    ∃ stop after, stop < code.length ∧
      Reaches (step meaning code) (.running pc state) (.running stop after) ∧
      Halted (step meaning code) (.running stop after) := by
  cases opsRun : execOps meaning ops state with
  | none => exact execOps_stuck here.left opsRun
  | some middle =>
      have untested : meaning.test test middle = none := by
        simpa [evalTest, opsRun] using run
      have jump := here.right
      rw [List.length_map] at jump
      refine ⟨_, middle, jump.lt_length, execOps_reaches here.left opsRun, ?_⟩
      simp [Halted, step, jump.getElem?, untested]

/-- A condition, when what follows in either case is simulated. -/
theorem simulates_choose (nodup : (labelsOf code).Nodup) {ops : List Op}
    {test : Test} {label : Label}
    (here : At code pc (ops.map .op ++ .jumpUnless label test :: rest))
    {there : Nat} {others : List (Instr Op Test Value Label)}
    (goal : At code there (.label label :: others)) {finish least : Nat}
    {whenTrue whenFalse : State → Option (Outcome State Result)}
    (trueSimulates : ∀ after, Simulates meaning code
      (.running (pc + ops.length + 1) after) finish least (whenTrue after))
    (falseSimulates : ∀ after, Simulates meaning code
      (.running (there + 1) after) finish least (whenFalse after))
    (state : State) :
    Simulates meaning code (.running pc state) finish least
      (choose (evalTest meaning ops test state) whenTrue whenFalse) := by
  cases tested : evalTest meaning ops test state with
  | none => exact evalTest_stuck here tested
  | some found =>
      obtain ⟨holds, after⟩ := found
      have run := evalTest_reaches nodup here goal tested
      cases holds with
      | true => exact Simulates.of_reaches run (trueSimulates after)
      | false =>
          have pass := Reaches.single (step_label meaning goal after)
          exact Simulates.of_reaches (run.trans pass) (falseSimulates after)

/-- A loop, when its body is simulated.  Every iteration takes a step at least,
so that a loop out of fuel has run as many steps as it had iterations. -/
theorem simulates_execLoop (nodup : (labelsOf code).Nodup) {ops : List Op}
    {test : Test} {startLabel endLabel : Label}
    {body : Tree Op Test Value Label} {fuel : Nat}
    (here : At code pc (Tree.loop ops test startLabel endLabel body).lower)
    (bodySimulates : ∀ {start}, At code start body.lower → ∀ state,
      Simulates meaning code (.running start state) (start + body.lower.length)
        fuel (body.exec meaning fuel state)) :
    ∀ {left : Nat} (state : State), left ≤ fuel →
      Simulates meaning code (.running pc state)
        (pc + (Tree.loop ops test startLabel endLabel body).lower.length) left
        (execLoop (evalTest meaning ops test) (body.exec meaning fuel) left
          state) := by
  have start : At code pc
      (.label startLabel :: (ops.map .op ++ .jumpUnless endLabel test ::
        (body.lower ++ [.jump startLabel, .label endLabel]))) := by
    simpa [Tree.lower] using here
  have condition := start.tail
  have bodyHere := condition.right.tail
  rw [List.length_map] at bodyHere
  have back := bodyHere.right
  have leave := back.tail
  intro left
  induction left with
  | zero => exact fun _ _ => rfl
  | succ left inductionHypothesis =>
      intro state enough
      have enter : iterate (step meaning code) 1 (.running pc state) =
          some (.running (pc + 1) state) := by
        simp [iterate, step_label meaning start]
      refine Simulates.weaken (Nat.add_comm left 1).le
        (Simulates.of_iterate enter ?_)
      refine simulates_choose nodup condition leave (fun after => ?_)
        (fun after => ?_) state
      · refine Simulates.andThen
          ((bodySimulates bodyHere.left after).weaken (by omega)) ?_
        intro next _
        have again := Reaches.single (step_jump meaning nodup back start next)
        exact Simulates.of_reaches again (inductionHypothesis next (by omega))
      · have finish : pc + 1 + ops.length + 1 + body.lower.length + 1 + 1 =
            pc + (Tree.loop ops test startLabel endLabel body).lower.length := by
          simp only [Tree.lower, List.length_append, List.length_cons,
            List.length_map, List.length_nil]
          omega
        rw [finish]
        exact Reaches.refl _

variable (meaning) in
/-- The flat program of a tree simulates its structured execution. -/
theorem simulates_lower (nodup : (labelsOf code).Nodup)
    (tree : Tree Op Test Value Label) (fuel : Nat)
    (here : At code pc tree.lower) (state : State) :
    Simulates meaning code (.running pc state) (pc + tree.lower.length) fuel
      (tree.exec meaning fuel state) := by
  induction tree generalizing pc state with
  | straight ops =>
      unfold Tree.exec
      cases run : execOps meaning ops state with
      | none => exact execOps_stuck here run
      | some after =>
          have runs := execOps_reaches here run
          rwa [← List.length_map (f := Instr.op)] at runs
  | seq first second firstHypothesis secondHypothesis =>
      have whole : At code pc (first.lower ++ second.lower) := here
      refine Simulates.andThen (firstHypothesis whole.left state) ?_
      intro after _
      have rest := secondHypothesis whole.right after
      rwa [Nat.add_assoc, ← List.length_append] at rest
  | ifThen ops test elseLabel branch branchHypothesis =>
      have whole : At code pc (ops.map .op ++ .jumpUnless elseLabel test ::
          (branch.lower ++ [.label elseLabel])) := by
        simpa [Tree.lower] using here
      have branchHere := whole.right.tail
      rw [List.length_map] at branchHere
      have leave := branchHere.right
      have finish : pc + ops.length + 1 + branch.lower.length + 1 =
          pc + (Tree.ifThen ops test elseLabel branch).lower.length := by
        simp only [Tree.lower, List.length_append, List.length_cons,
          List.length_map, List.length_nil]
        omega
      rw [← finish]
      unfold Tree.exec
      refine simulates_choose nodup whole leave (fun after => ?_)
        (fun after => ?_) state
      · exact (branchHypothesis branchHere.left after).extend fun next =>
          .single (step_label meaning leave next)
      · exact Reaches.refl _
  | ifThenElse ops test elseLabel endLabel branchThen branchElse thenHypothesis
      elseHypothesis =>
      have whole : At code pc (ops.map .op ++ .jumpUnless elseLabel test ::
          (branchThen.lower ++ .jump endLabel :: .label elseLabel ::
            (branchElse.lower ++ [.label endLabel]))) := by
        simpa [Tree.lower] using here
      have thenHere := whole.right.tail
      rw [List.length_map] at thenHere
      have skip := thenHere.right
      have elseHere := skip.tail.tail
      have leave := elseHere.right
      have finish : pc + ops.length + 1 + branchThen.lower.length + 1 + 1 +
          branchElse.lower.length + 1 =
            pc + (Tree.ifThenElse ops test elseLabel endLabel branchThen
              branchElse).lower.length := by
        simp only [Tree.lower, List.length_append, List.length_cons,
          List.length_map, List.length_nil]
        omega
      rw [← finish]
      unfold Tree.exec
      refine simulates_choose nodup whole skip.tail (fun after => ?_)
        (fun after => ?_) state
      · exact (thenHypothesis thenHere.left after).extend fun next =>
          (Reaches.single (step_jump meaning nodup skip leave next)).trans
            (.single (step_label meaning leave next))
      · exact (elseHypothesis elseHere.left after).extend fun next =>
          .single (step_label meaning leave next)
  | loop ops test startLabel endLabel body bodyHypothesis =>
      exact simulates_execLoop nodup here bodyHypothesis state le_rfl
  | ret ops value =>
      have last := At.right (ops.map Instr.op) here
      rw [List.length_map] at last
      unfold Tree.exec
      dsimp only
      cases run : execOps meaning ops state with
      | none => exact execOps_stuck here.left run
      | some after =>
          have reach := execOps_reaches here.left run
          cases valued : meaning.result value after with
          | none =>
              simp only [Option.bind_some, valued, Option.map_none, Option.getD_none]
              refine ⟨_, after, last.lt_length, reach, ?_⟩
              simp [Halted, step, last.getElem?, valued]
          | some result =>
              simp only [Option.bind_some, valued, Option.map_some, Option.getD_some]
              refine reach.trans (.single ?_)
              simp [step, last.getElem?, valued]

/-! ## The lowering preserves and reflects behaviour -/

theorem halted_finish (state : State) :
    Halted (step meaning code) (.running code.length state) := by
  simp [Halted, step]

theorem halted_returned (result : Result) (state : State) :
    Halted (step meaning code) (.returned result state) := rfl

section Lowering

variable {tree : Tree Op Test Value Label} (nodup : (labelsOf tree.lower).Nodup)

include nodup

variable (meaning) in
theorem simulates_self (fuel : Nat) (state : State) :
    Simulates meaning tree.lower (.running 0 state) tree.lower.length fuel
      (tree.exec meaning fuel state) := by
  have simulates := simulates_lower meaning nodup tree fuel .self state
  rwa [Nat.zero_add] at simulates

/-- A tree that never ends runs forever on the machine. -/
theorem diverges_of_exec {state : State}
    (endless : ∀ fuel, tree.exec meaning fuel state = none) :
    Diverges (step meaning tree.lower) (.running 0 state) := by
  intro fuel
  have simulates := simulates_self meaning nodup fuel state
  rw [endless fuel] at simulates
  exact simulates

/-- What the machine halts in tells the outcome of the tree. -/
theorem exists_exec_of_halted {state : State} {final : Config State Result}
    (run : Reaches (step meaning tree.lower) (.running 0 state) final)
    (halted : Halted (step meaning tree.lower) final) :
    ∃ fuel outcome, tree.exec meaning fuel state = some outcome := by
  by_contra endless
  push Not at endless
  refine run.not_diverges halted (diverges_of_exec nodup fun fuel => ?_)
  exact Option.eq_none_iff_forall_ne_some.mpr (endless fuel)

theorem reaches_finish_iff (state after : State) :
    Reaches (step meaning tree.lower) (.running 0 state)
        (.running tree.lower.length after) ↔
      ∃ fuel, tree.exec meaning fuel state = some (.normal after) := by
  constructor
  · intro run
    obtain ⟨fuel, outcome, ends⟩ :=
      exists_exec_of_halted nodup run (halted_finish after)
    have simulates := simulates_self meaning nodup fuel state
    rw [ends] at simulates
    cases outcome with
    | normal other =>
        have same := run.eq_of_halted (halted_finish after) simulates
          (halted_finish other)
        obtain ⟨-, rfl⟩ := Config.running.inj same
        exact ⟨fuel, ends⟩
    | returned result other =>
        cases run.eq_of_halted (halted_finish after) simulates
          (halted_returned result other)
    | stuck =>
        obtain ⟨pc, other, inside, stuckRun, stuck⟩ := simulates
        have same := run.eq_of_halted (halted_finish after) stuckRun stuck
        obtain ⟨position, -⟩ := Config.running.inj same
        omega
  · rintro ⟨fuel, ends⟩
    have simulates := simulates_self meaning nodup fuel state
    rwa [ends] at simulates

theorem reaches_returned_iff (state after : State) (result : Result) :
    Reaches (step meaning tree.lower) (.running 0 state) (.returned result after) ↔
      ∃ fuel, tree.exec meaning fuel state = some (.returned result after) := by
  constructor
  · intro run
    obtain ⟨fuel, outcome, ends⟩ :=
      exists_exec_of_halted nodup run (halted_returned result after)
    have simulates := simulates_self meaning nodup fuel state
    rw [ends] at simulates
    cases outcome with
    | normal other =>
        cases run.eq_of_halted (halted_returned result after) simulates
          (halted_finish other)
    | returned found other =>
        have same := run.eq_of_halted (halted_returned result after) simulates
          (halted_returned found other)
        obtain ⟨rfl, rfl⟩ := Config.returned.inj same
        exact ⟨fuel, ends⟩
    | stuck =>
        obtain ⟨pc, other, inside, stuckRun, stuck⟩ := simulates
        cases run.eq_of_halted (halted_returned result after) stuckRun stuck
  · rintro ⟨fuel, ends⟩
    have simulates := simulates_self meaning nodup fuel state
    rwa [ends] at simulates

theorem diverges_iff (state : State) :
    Diverges (step meaning tree.lower) (.running 0 state) ↔
      ∀ fuel, tree.exec meaning fuel state = none := by
  refine ⟨fun diverges fuel => ?_, diverges_of_exec nodup⟩
  cases ends : tree.exec meaning fuel state with
  | none => rfl
  | some outcome =>
      exfalso
      have simulates := simulates_self meaning nodup fuel state
      rw [ends] at simulates
      cases outcome with
      | normal after => exact simulates.not_diverges (halted_finish after) diverges
      | returned result after =>
          exact simulates.not_diverges (halted_returned result after) diverges
      | stuck =>
          obtain ⟨pc, other, inside, run, stuck⟩ := simulates
          exact run.not_diverges stuck diverges

end Lowering

end Simulation

end Sulfur.Structured
