import Mathlib.Tactic

/-!
# Flat programs with jumps

A flat program is a list of instructions that transform a state, with labels,
jumps and returns among them.  What the other instructions, the tests and the
returned values mean is a parameter.  The machine that runs such a program is a
partial function on configurations, so that it halts, gets stuck or diverges.
-/

namespace Sulfur.Jump

universe u

/-! ## Runs of a partial step function -/

section Runs

variable {σ : Type u} (next : σ → Option σ)

/-- Exactly `n` steps. -/
def iterate : Nat → σ → Option σ
  | 0, config => some config
  | n + 1, config => (next config).bind (iterate n)

/-- Some number of steps leads from one state to the other. -/
def Reaches (source target : σ) : Prop :=
  ∃ n, iterate next n source = some target

/-- A run that can always go on. -/
def Diverges (source : σ) : Prop :=
  ∀ n, (iterate next n source).isSome

variable {next}

theorem iterate_add (m n : Nat) (config : σ) :
    iterate next (m + n) config =
      (iterate next m config).bind (iterate next n) := by
  induction m generalizing config with
  | zero => simp [iterate]
  | succ m inductionHypothesis =>
      rw [Nat.succ_add]
      simp only [iterate, Option.bind_assoc]
      congr 1
      funext middle
      exact inductionHypothesis middle

theorem Reaches.refl (config : σ) : Reaches next config config :=
  ⟨0, rfl⟩

theorem Reaches.single {source target : σ} (step : next source = some target) :
    Reaches next source target :=
  ⟨1, by simp [iterate, step]⟩

theorem Reaches.trans {first second third : σ}
    (firstRun : Reaches next first second)
    (secondRun : Reaches next second third) : Reaches next first third := by
  obtain ⟨m, firstRun⟩ := firstRun
  obtain ⟨n, secondRun⟩ := secondRun
  exact ⟨m + n, by rw [iterate_add, firstRun]; exact secondRun⟩

theorem iterate_succ (n : Nat) (config : σ) :
    iterate next (n + 1) config = (iterate next n config).bind next := by
  rw [iterate_add]
  congr 1
  funext middle
  simp [iterate]

/-- What no step of a run changes, the run does not change. -/
theorem iterate_keeps {α : Type*} {view : σ → α} {n : Nat} {config final : σ}
    (run : iterate next n config = some final)
    (keeps : ∀ m < n, ∀ visited later, iterate next m config = some visited →
      next visited = some later → view later = view visited) :
    view final = view config := by
  induction n generalizing final with
  | zero =>
      rw [iterate, Option.some.injEq] at run
      rw [run]
  | succ n inductionHypothesis =>
      rw [iterate_succ, Option.bind_eq_some_iff] at run
      rcases run with ⟨last, before, step⟩
      rw [keeps n (Nat.lt_succ_self n) last final before step]
      exact inductionHypothesis before fun m earlier =>
        keeps m (Nat.lt_succ_of_lt earlier)

/-- A run that goes on for a while goes on for any shorter while. -/
theorem isSome_iterate_of_le {m n : Nat} (shorter : m ≤ n) {config : σ}
    (runs : (iterate next n config).isSome) :
    (iterate next m config).isSome := by
  obtain ⟨rest, rfl⟩ := Nat.exists_eq_add_of_le shorter
  rw [iterate_add] at runs
  cases steps : iterate next m config with
  | none => simp [steps] at runs
  | some middle => rfl

/-- No step is possible from a halted configuration. -/
def Halted (next : σ → Option σ) (config : σ) : Prop :=
  next config = none

theorem Reaches.not_diverges {source target : σ}
    (run : Reaches next source target) (halted : Halted next target) :
    ¬ Diverges next source := by
  intro diverges
  obtain ⟨n, run⟩ := run
  have further := diverges (n + 1)
  rw [iterate_add, run] at further
  simp [iterate, show next _ = none from halted] at further

/-- A run halts in one configuration at most. -/
theorem Reaches.eq_of_halted {source first second : σ}
    (firstRun : Reaches next source first) (firstHalted : Halted next first)
    (secondRun : Reaches next source second) (secondHalted : Halted next second) :
    first = second := by
  obtain ⟨m, firstRun⟩ := firstRun
  obtain ⟨n, secondRun⟩ := secondRun
  have stays {k : Nat} {config other : σ} (halted : Halted next config)
      (run : iterate next k config = some other) : config = other := by
    cases k with
    | zero => exact Option.some.inj run
    | succ k => simp [iterate, show next _ = none from halted] at run
  rcases Nat.le_total m n with shorter | shorter
  · obtain ⟨rest, rfl⟩ := Nat.exists_eq_add_of_le shorter
    rw [iterate_add, firstRun] at secondRun
    exact stays firstHalted secondRun
  · obtain ⟨rest, rfl⟩ := Nat.exists_eq_add_of_le shorter
    rw [iterate_add, secondRun] at firstRun
    exact (stays secondHalted firstRun).symm

end Runs

/-! ## The machine -/

/-- What operations, tests and returned values mean. -/
structure Meaning (Op Test Value State Result : Type*) where
  exec : Op → State → Option State
  test : Test → State → Option Bool
  result : Value → State → Option Result

/-- Code with labels and jumps, over operations, tests and values. -/
inductive Instr (Op Test Value Label : Type*)
  | op (op : Op)
  | label (label : Label)
  | jump (label : Label)
  | jumpUnless (label : Label) (test : Test)
  | ret (value : Value)

/-- The code runs at an index, or has returned. -/
inductive Config (State Result : Type*)
  | running (pc : Nat) (state : State)
  | returned (result : Result) (state : State)

section Machine

variable {Op Test Value Label State Result : Type*}

/-- The label that an instruction declares. -/
def Instr.declared : Instr Op Test Value Label → Option Label
  | .label name => some name
  | _ => none

/-- The labels that a program declares. -/
def labelsOf (code : List (Instr Op Test Value Label)) : List Label :=
  code.filterMap Instr.declared

@[simp]
theorem labelsOf_append (first second : List (Instr Op Test Value Label)) :
    labelsOf (first ++ second) = labelsOf first ++ labelsOf second :=
  List.filterMap_append

@[simp]
theorem labelsOf_map_op (ops : List Op) :
    labelsOf (ops.map fun op => (.op op : Instr Op Test Value Label)) = [] := by
  simp [labelsOf, List.filterMap_map, Instr.declared]

@[simp]
theorem labelsOf_nil :
    labelsOf ([] : List (Instr Op Test Value Label)) = [] := rfl

@[simp]
theorem labelsOf_cons_label (label : Label)
    (rest : List (Instr Op Test Value Label)) :
    labelsOf (.label label :: rest) = label :: labelsOf rest := rfl

@[simp]
theorem labelsOf_cons_jump (label : Label)
    (rest : List (Instr Op Test Value Label)) :
    labelsOf (.jump label :: rest) = labelsOf rest := rfl

@[simp]
theorem labelsOf_cons_jumpUnless (label : Label) (test : Test)
    (rest : List (Instr Op Test Value Label)) :
    labelsOf (.jumpUnless label test :: rest) = labelsOf rest := rfl

@[simp]
theorem labelsOf_cons_ret (value : Value)
    (rest : List (Instr Op Test Value Label)) :
    labelsOf (.ret value :: rest) = labelsOf rest := rfl

/-- A piece of code at a position of a program. -/
def At (code : List (Instr Op Test Value Label)) (pc : Nat)
    (piece : List (Instr Op Test Value Label)) : Prop :=
  ∃ before after, code = before ++ piece ++ after ∧ pc = before.length

namespace At

variable {code : List (Instr Op Test Value Label)} {pc : Nat}
  {first second : List (Instr Op Test Value Label)}
  {instr : Instr Op Test Value Label}

theorem self : At code 0 code :=
  ⟨[], [], by simp, rfl⟩

theorem left (here : At code pc (first ++ second)) : At code pc first := by
  obtain ⟨before, after, rfl, rfl⟩ := here
  exact ⟨before, second ++ after, by simp, rfl⟩

theorem right (first : List (Instr Op Test Value Label))
    (here : At code pc (first ++ second)) :
    At code (pc + first.length) second := by
  obtain ⟨before, after, rfl, rfl⟩ := here
  exact ⟨before ++ first, after, by simp, by simp⟩

theorem tail (here : At code pc (instr :: first)) : At code (pc + 1) first :=
  right [instr] here

theorem getElem? (here : At code pc (instr :: first)) : code[pc]? = some instr := by
  obtain ⟨before, after, rfl, rfl⟩ := here
  simp

theorem lt_length (here : At code pc (instr :: first)) : pc < code.length := by
  obtain ⟨before, after, rfl, rfl⟩ := here
  simp

end At

variable [DecidableEq Label]

/-- The position of a label. -/
def target (code : List (Instr Op Test Value Label)) (label : Label) :
    Option Nat :=
  code.findIdx? fun instr => instr.declared = some label

/-- When no label is declared twice, a jump to a label finds it. -/
theorem At.target_eq {code rest : List (Instr Op Test Value Label)}
    (nodup : (labelsOf code).Nodup) {pc : Nat} {label : Label}
    (here : At code pc (.label label :: rest)) : target code label = some pc := by
  obtain ⟨before, after, rfl, rfl⟩ := here
  have absent : label ∉ labelsOf before := by
    intro declared
    simp only [List.append_assoc, labelsOf_append] at nodup
    refine (List.nodup_append.mp nodup).2.2 label declared label ?_ rfl
    simp [labelsOf, Instr.declared]
  have notBefore : before.findIdx?
      (fun instr => instr.declared = some label) = none := by
    simp only [List.findIdx?_eq_none_iff, decide_eq_false_iff_not]
    intro instr inBefore declared
    exact absent (List.mem_filterMap.mpr ⟨instr, inBefore, declared⟩)
  have here : (Instr.label label : Instr Op Test Value Label).declared = some label :=
    rfl
  simp [target, List.findIdx?_append, List.findIdx?_cons, notBefore, here]

/-- One step of the machine; a return, the end of the program and an undefined
operation have none. -/
def step (meaning : Meaning Op Test Value State Result)
    (code : List (Instr Op Test Value Label)) :
    Config State Result → Option (Config State Result)
  | .running pc state =>
      match code[pc]? with
      | none => none
      | some (.op op) => (meaning.exec op state).map (.running (pc + 1))
      | some (.label _) => some (.running (pc + 1) state)
      | some (.jump label) => (target code label).map (.running · state)
      | some (.jumpUnless label test) =>
          (meaning.test test state).bind fun holds =>
            if holds then some (.running (pc + 1) state)
            else (target code label).map (.running · state)
      | some (.ret value) =>
          (meaning.result value state).map (.returned · state)
  | .returned .. => none

end Machine

end Sulfur.Jump
