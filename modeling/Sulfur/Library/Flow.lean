import Sulfur.Library.Structured

/-!
# Paths of control

Control passes from an instruction to the next one and to the labels that it names,
whatever the tests mean.  The paths from a position stay inside of a piece of code when
the piece declares the labels of its jumps and ends in a return, and when it is lowered
from a structured program that returns on all of its branches.
-/

namespace Sulfur.Jump

variable {Op Test Value Label State Result : Type*}

/-- The label that an instruction names. -/
def Instr.jumpsTo : Instr Op Test Value Label → Option Label
  | .jump name | .jumpUnless name _ => some name
  | _ => none

/-- Control may pass to the next instruction. -/
def Instr.fallsThrough : Instr Op Test Value Label → Bool
  | .jump _ | .ret _ => false
  | _ => true

/-- The jumps of a piece of code name labels from the list. -/
def JumpsWithin (labels : List Label) (piece : List (Instr Op Test Value Label)) : Prop :=
  ∀ instr ∈ piece, ∀ label, instr.jumpsTo = some label → label ∈ labels

/-- A piece of code declares the labels that it jumps to. -/
def ClosedJumps (piece : List (Instr Op Test Value Label)) : Prop :=
  JumpsWithin (labelsOf piece) piece

section JumpsWithin

variable {labels more : List Label} {first second : List (Instr Op Test Value Label)}

theorem JumpsWithin.mono (within : JumpsWithin labels first) (subset : labels ⊆ more) :
    JumpsWithin more first :=
  fun instr inPiece label jumps => subset (within instr inPiece label jumps)

@[simp]
theorem jumpsWithin_nil : JumpsWithin labels ([] : List (Instr Op Test Value Label)) := by
  simp [JumpsWithin]

@[simp]
theorem jumpsWithin_append :
    JumpsWithin labels (first ++ second) ↔
      JumpsWithin labels first ∧ JumpsWithin labels second :=
  List.forall_mem_append

@[simp]
theorem jumpsWithin_cons {instr : Instr Op Test Value Label} :
    JumpsWithin labels (instr :: first) ↔
      (∀ label, instr.jumpsTo = some label → label ∈ labels) ∧ JumpsWithin labels first :=
  List.forall_mem_cons

@[simp]
theorem jumpsWithin_map_op (ops : List Op) :
    JumpsWithin labels (ops.map .op : List (Instr Op Test Value Label)) := by
  intro instr inPiece label jumps
  rcases List.mem_map.mp inPiece with ⟨op, -, rfl⟩
  cases jumps

theorem ClosedJumps.append (firstClosed : ClosedJumps first)
    (secondClosed : ClosedJumps second) : ClosedJumps (first ++ second) := by
  rw [ClosedJumps, labelsOf_append, jumpsWithin_append]
  constructor
  · exact firstClosed.mono (List.subset_append_left _ _)
  · exact secondClosed.mono (List.subset_append_right _ _)

end JumpsWithin

variable [DecidableEq Label]

/-- Control may pass from a position to another one. -/
inductive Flows (code : List (Instr Op Test Value Label)) (pc : Nat) : Nat → Prop
  | next {instr : Instr Op Test Value Label} (here : code[pc]? = some instr)
      (falls : instr.fallsThrough) : Flows code pc (pc + 1)
  | jump {instr : Instr Op Test Value Label} {label : Label} {dest : Nat}
      (here : code[pc]? = some instr) (jumps : instr.jumpsTo = some label)
      (found : target code label = some dest) : Flows code pc dest

/-- Control may pass from the start to a position along a path. -/
def Path (code : List (Instr Op Test Value Label)) : Nat → Nat → Prop :=
  Relation.ReflTransGen (Flows code)

section Machine

variable {meaning : Meaning Op Test Value State Result}
  {code : List (Instr Op Test Value Label)}

/-- The machine moves along a path. -/
theorem Flows.of_step {pc next : Nat} {state later : State}
    (run : step meaning code (.running pc state) = some (.running next later)) :
    Flows code pc next := by
  unfold step at run
  dsimp only at run
  split at run
  · cases run
  · rename_i op here
    rw [Option.map_eq_some_iff] at run
    rcases run with ⟨after, -, same⟩
    cases same
    exact .next here rfl
  · rename_i label here
    cases run
    exact .next here rfl
  · rename_i label here
    rw [Option.map_eq_some_iff] at run
    rcases run with ⟨dest, found, same⟩
    cases same
    exact .jump here rfl found
  · rename_i label test here
    rw [Option.bind_eq_some_iff] at run
    rcases run with ⟨holds, -, run⟩
    split at run
    · cases run
      exact .next here rfl
    · rw [Option.map_eq_some_iff] at run
      rcases run with ⟨dest, found, same⟩
      cases same
      exact .jump here rfl found
  · rw [Option.map_eq_some_iff] at run
    rcases run with ⟨result, -, same⟩
    cases same

theorem Path.of_run {n pc next : Nat} {state later : State}
    (run : iterate (step meaning code) n (.running pc state) = some (.running next later)) :
    Path code pc next := by
  induction n generalizing next later with
  | zero =>
      cases run
      exact .refl
  | succ n inductionHypothesis =>
      rw [iterate_succ, Option.bind_eq_some_iff] at run
      rcases run with ⟨visited, before, last⟩
      cases visited with
      | returned result final => cases last
      | running middle between =>
          exact (inductionHypothesis before).tail (.of_step last)

end Machine

/-! ## Confined control -/

/-- Control does not leave the positions. -/
def Confines (code : List (Instr Op Test Value Label)) (positions : Set Nat) : Prop :=
  ∀ pc ∈ positions, ∀ next, Flows code pc next → next ∈ positions

section Pieces

variable {code piece : List (Instr Op Test Value Label)} {positions : Set Nat}
  {start pc next : Nat}

theorem Confines.path (confines : Confines code positions) (inside : start ∈ positions)
    (path : Path code start pc) : pc ∈ positions := by
  induction path with
  | refl => exact inside
  | tail before flow inductionHypothesis => exact confines _ inductionHypothesis _ flow

/-- Control goes on from one more position to the others. -/
theorem Confines.insert (confines : Confines code positions)
    (onward : ∀ next, Flows code pc next → next ∈ positions) :
    Confines code (insert pc positions) := by
  rintro visited (rfl | inside) next flow
  · exact Or.inr (onward next flow)
  · exact Or.inr (confines visited inside next flow)

theorem Confines.union {others : Set Nat} (confines : Confines code positions)
    (othersConfine : Confines code others) : Confines code (positions ∪ others) := by
  rintro visited (inside | inside) next flow
  · exact Or.inl (confines visited inside next flow)
  · exact Or.inr (othersConfine visited inside next flow)

omit [DecidableEq Label] in
theorem At.getElem?_eq (here : At code start piece) (lower : start ≤ pc)
    (upper : pc < start + piece.length) : code[pc]? = piece[pc - start]? := by
  rcases here with ⟨before, after, rfl, rfl⟩
  rw [List.getElem?_append_left (by simp only [List.length_append]; omega),
    List.getElem?_append_right lower]

/-- A label of a piece is found inside of it. -/
theorem At.target_mem (nodup : (labelsOf code).Nodup) (here : At code start piece)
    {label : Label} (declared : label ∈ labelsOf piece) :
    ∃ dest, target code label = some dest ∧ start ≤ dest ∧ dest < start + piece.length := by
  rcases List.mem_filterMap.mp declared with ⟨instr, inPiece, declares⟩
  rcases List.append_of_mem inPiece with ⟨front, rest, rfl⟩
  have isLabel : instr = .label label := by
    cases instr <;> cases declares
    rfl
  rw [isLabel] at here
  refine ⟨_, (here.right front).target_eq nodup, by omega, ?_⟩
  rw [List.length_append, List.length_cons]
  omega

/-- Control leaves a piece that declares its labels at its end only. -/
theorem flows_of_closedJumps (nodup : (labelsOf code).Nodup) (here : At code start piece)
    (closed : ClosedJumps piece) (lower : start ≤ pc) (upper : pc < start + piece.length)
    (flow : Flows code pc next) :
    start ≤ next ∧ (next < start + piece.length ∨
      next = start + piece.length ∧ pc + 1 = start + piece.length) := by
  cases flow with
  | next => omega
  | @jump instr label dest found jumps isTarget =>
      rw [here.getElem?_eq lower upper] at found
      have declared := closed instr (List.mem_of_getElem? found) label jumps
      rcases here.target_mem nodup declared with ⟨other, isOther, inside⟩
      rw [isOther] at isTarget
      cases isTarget
      exact ⟨inside.1, Or.inl inside.2⟩

/-- Control passes through a piece that declares its labels to the positions behind. -/
theorem confines_append (nodup : (labelsOf code).Nodup) (here : At code start piece)
    (closed : ClosedJumps piece) (confines : Confines code positions)
    (behind : start + piece.length ∈ positions) :
    Confines code (Set.Ico start (start + piece.length) ∪ positions) := by
  rintro pc (⟨lower, upper⟩ | inside) next flow
  · rcases flows_of_closedJumps nodup here closed lower upper flow with
      ⟨least, most | ⟨rfl, -⟩⟩
    · exact Or.inl ⟨least, most⟩
    · exact Or.inr behind
  · exact Or.inr (confines pc inside next flow)

/-- Control does not leave a piece that ends in a return. -/
theorem confines_of_ret (nodup : (labelsOf code).Nodup) {value : Value}
    (here : At code start (piece ++ [.ret value])) (closed : ClosedJumps piece) :
    Confines code (Set.Ico start (start + (piece.length + 1))) := by
  have isRet := (here.right piece).getElem?
  have atRet : Confines code {start + piece.length} := by
    intro pc atEnd next flow
    rw [Set.mem_singleton_iff.mp atEnd] at flow
    cases flow with
    | next found falls =>
        rw [isRet] at found
        cases found
        cases falls
    | jump found jumps =>
        rw [isRet] at found
        cases found
        cases jumps
  have confines := confines_append nodup here.left closed atRet rfl
  have positions : Set.Ico start (start + piece.length) ∪ {start + piece.length} =
      Set.Ico start (start + (piece.length + 1)) := by
    ext pc
    simp only [Set.mem_union, Set.mem_Ico, Set.mem_singleton_iff]
    omega
  rwa [positions] at confines

end Pieces

end Sulfur.Jump

namespace Sulfur.Structured

open Jump

variable {Op Test Value Label : Type*}

/-- All branches of a tree return. -/
def Tree.returns : Tree Op Test Value Label → Bool
  | .straight _ | .ifThen .. | .loop .. => false
  | .seq first second => first.returns || second.returns
  | .ifThenElse _ _ _ _ branchThen branchElse => branchThen.returns && branchElse.returns
  | .ret .. => true

theorem Tree.closedJumps (tree : Tree Op Test Value Label) : ClosedJumps tree.lower := by
  unfold ClosedJumps
  induction tree with
  | straight ops => exact jumpsWithin_map_op ops
  | seq first second firstHypothesis secondHypothesis =>
      exact ClosedJumps.append firstHypothesis secondHypothesis
  | ret ops value => simp [lower, Instr.jumpsTo]
  | ifThen ops test elseLabel branch inductionHypothesis =>
      have inside : JumpsWithin (labelsOf branch.lower ++ [elseLabel]) branch.lower :=
        inductionHypothesis.mono (List.subset_append_left _ _)
      simp [lower, Instr.jumpsTo, inside]
  | ifThenElse ops test elseLabel endLabel branchThen branchElse thenHypothesis
      elseHypothesis =>
      have thenInside : JumpsWithin (labelsOf branchThen.lower ++
          elseLabel :: (labelsOf branchElse.lower ++ [endLabel])) branchThen.lower :=
        thenHypothesis.mono (List.subset_append_left _ _)
      have elseInside : JumpsWithin (labelsOf branchThen.lower ++
          elseLabel :: (labelsOf branchElse.lower ++ [endLabel])) branchElse.lower := by
        apply elseHypothesis.mono
        intro label declared
        simp [declared]
      simp [lower, Instr.jumpsTo, thenInside, elseInside]
  | loop ops test startLabel endLabel body inductionHypothesis =>
      have inside : JumpsWithin (startLabel :: (labelsOf body.lower ++ [endLabel]))
          body.lower := by
        apply inductionHypothesis.mono
        intro label declared
        simp [declared]
      simp [lower, Instr.jumpsTo, inside]

variable [DecidableEq Label] {code : List (Instr Op Test Value Label)}

/-- Control does not leave the code of a tree that returns. -/
theorem Tree.exists_confines (nodup : (labelsOf code).Nodup)
    (tree : Tree Op Test Value Label) (returns : tree.returns) {start : Nat}
    (here : At code start tree.lower) :
    ∃ positions, start ∈ positions ∧ positions ⊆ Set.Ico start (start + tree.lower.length) ∧
      Confines code positions := by
  induction tree generalizing start with
  | straight | ifThen | loop => cases returns
  | ret ops value =>
      refine ⟨_, ?_, ?_, confines_of_ret nodup here (jumpsWithin_map_op ops)⟩
      · simp
      · simp [lower]
  | seq first second firstHypothesis secondHypothesis =>
      rw [Tree.lower] at here
      rw [Tree.returns, Bool.or_eq_true] at returns
      rcases returns with firstReturns | secondReturns
      · rcases firstHypothesis firstReturns here.left with
          ⟨positions, inside, subset, confines⟩
        refine ⟨positions, inside, subset.trans (Set.Ico_subset_Ico_right ?_), confines⟩
        simp [lower]
      · rcases secondHypothesis secondReturns (here.right first.lower) with
          ⟨positions, inside, subset, confines⟩
        refine ⟨_, ?_, ?_, confines_append nodup here.left first.closedJumps confines inside⟩
        · by_cases empty : first.lower.length = 0
          · right
            rwa [empty] at inside
          · left
            exact ⟨le_rfl, by omega⟩
        · rintro pc (inFirst | inSecond)
          · simp only [lower, List.length_append, Set.mem_Ico] at inFirst ⊢
            omega
          · have bounds := subset inSecond
            simp only [lower, List.length_append, Set.mem_Ico] at bounds ⊢
            omega
  | ifThenElse ops test elseLabel endLabel branchThen branchElse thenHypothesis
      elseHypothesis =>
      rw [Tree.returns, Bool.and_eq_true] at returns
      rw [Tree.lower] at here
      have atTest := here.left.left.left.right (ops.map .op)
      have atLabel := (here.left.left.right _).tail
      have atElse := here.left.right _
      rcases thenHypothesis returns.1 atTest.tail with
        ⟨thenPositions, thenInside, thenSubset, thenConfines⟩
      rcases elseHypothesis returns.2 atElse with
        ⟨elsePositions, elseInside, elseSubset, elseConfines⟩
      have labelConfines : Confines code (insert (start + (ops.map Instr.op ++
          Instr.jumpUnless elseLabel test :: branchThen.lower).length + 1) elsePositions) := by
        apply elseConfines.insert
        intro next flow
        cases flow with
        | next =>
            rw [List.length_append, ← Nat.add_assoc] at elseInside
            exact elseInside
        | jump found jumps =>
            rw [atLabel.getElem?] at found
            cases found
            cases jumps
      have testConfines := (thenConfines.union labelConfines).insert fun next flow => by
        cases flow with
        | next => exact Or.inl thenInside
        | jump found jumps isTarget =>
            rw [atTest.getElem?] at found
            cases found
            cases jumps
            rw [atLabel.target_eq nodup] at isTarget
            cases isTarget
            exact Or.inr (Or.inl rfl)
      refine ⟨_, ?_, ?_, confines_append nodup here.left.left.left.left
        (jumpsWithin_map_op ops) testConfines (Or.inl rfl)⟩
      · by_cases empty : ops = []
        · simp [empty]
        · simp [List.length_pos_iff, empty]
      · have thenBounds {pc : Nat} (inThen : pc ∈ thenPositions) := thenSubset inThen
        have elseBounds {pc : Nat} (inElse : pc ∈ elsePositions) := elseSubset inElse
        simp only [lower, List.length_append, List.length_cons, List.length_map,
          List.length_nil, Set.mem_Ico] at thenBounds elseBounds ⊢
        rintro pc (inside | rfl | inThen | rfl | inElse)
        · simp only [Set.mem_Ico] at inside ⊢
          omega
        · simp only [Set.mem_Ico]
          omega
        · have := thenBounds inThen
          simp only [Set.mem_Ico]
          omega
        · simp only [Set.mem_Ico]
          omega
        · have := elseBounds inElse
          simp only [Set.mem_Ico]
          omega

end Sulfur.Structured
