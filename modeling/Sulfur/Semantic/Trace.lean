import Sulfur.Library.Trace
import Sulfur.Semantic.Statement

/-!
# Executions of analysed statements

The accesses to variables in an execution of an annotated tree.  A variable is
the number that the analyser gave to its declaration.  Conditions may have any
outcome and loops any number of iterations.
-/

namespace Sulfur

open Trace

namespace Expr

/-- The write of an increment to its operand. -/
def written : Expr → List (Event Nat)
  | identifier _ _ _ id _ => [.write id]
  | _ => []

mutual

/-- The accesses of an evaluation, from left to right. -/
def events : Expr → List (Event Nat)
  | binary _ _ left right => left.events ++ right.events
  | unary _ op operand =>
      operand.events ++ if op.isIncrementOrDecrement then operand.written else []
  | cast _ _ operand => operand.events
  | literal .. => []
  | identifier _ _ _ id _ => [.read id]
  | funcCall _ _ _ arguments => argumentEvents arguments

/-- The same for the arguments of a call. -/
def argumentEvents : List Expr → List (Event Nat)
  | [] => []
  | argument :: rest => argument.events ++ argumentEvents rest

end

theorem mem_argumentEvents {event : Event Nat} (arguments : List Expr) :
    event ∈ argumentEvents arguments ↔ ∃ argument ∈ arguments, event ∈ argument.events := by
  induction arguments with
  | nil => simp [argumentEvents]
  | cons argument rest inductionHypothesis =>
      simp [argumentEvents, inductionHypothesis]

/-- Expressions declare nothing. -/
theorem not_declare_mem_events (expr : Expr) (id : Nat) :
    .declare id ∉ expr.events := by
  induction expr using Expr.induction with
  | binary base op left right leftHypothesis rightHypothesis =>
      simp [events, leftHypothesis, rightHypothesis]
  | unary base op operand operandHypothesis =>
      simp only [events, List.mem_append, operandHypothesis, false_or]
      split
      · cases operand <;> simp [written]
      · simp
  | cast base target operand operandHypothesis => exact operandHypothesis
  | literal base tokenType value => simp [events]
  | identifier base name depth id symbol => simp [events]
  | funcCall base callee linkName arguments argumentsHypothesis =>
      rw [events, mem_argumentEvents]
      rintro ⟨argument, inArguments, declared⟩
      exact argumentsHypothesis argument inArguments declared

end Expr

/-- The accesses of an optional expression. -/
def optionEvents : Option Expr → List (Event Nat)
  | none => []
  | some value => value.events

/-- The initialiser is evaluated before its variable exists. -/
def VarDecl.events (decl : VarDecl) : List (Event Nat) :=
  optionEvents decl.value ++
    .declare decl.id :: if decl.value.isSome then [.write decl.id] else []

namespace Stmt

mutual

/-- The executions of a statement. -/
def behaviour : Stmt → Behaviour Nat
  | varDecl decl => .straight .normal decl.events
  | varAssign assign =>
      .straight .normal (assign.value.events ++ [.write assign.id])
  | block _ statements => behaviourAll statements
  | ifStmt _ condition branchThen branchElse =>
      .seq (.straight .normal condition.events)
        (.choice branchThen.behaviour (behaviourOption branchElse))
  | whileStmt _ condition branchDo =>
      .Loop (.straight .normal condition.events) branchDo.behaviour
  | funcDecl .. => .straight .normal []
  | returnStmt _ value => .straight .returned (optionEvents value)
  | expression expr => .straight .normal expr.events

/-- The same for a branch that may be missing. -/
def behaviourOption : Option Stmt → Behaviour Nat
  | none => .straight .normal []
  | some stmt => stmt.behaviour

/-- The same for the statements of a block. -/
def behaviourAll : List Stmt → Behaviour Nat
  | [] => .straight .normal []
  | stmt :: rest => .seq stmt.behaviour (behaviourAll rest)

end

mutual

/-- The variables that a statement declares. -/
def declared : Stmt → List Nat
  | varDecl decl => [decl.id]
  | block _ statements => declaredAll statements
  | ifStmt _ _ branchThen branchElse =>
      branchThen.declared ++ declaredOption branchElse
  | whileStmt _ _ branchDo => branchDo.declared
  | _ => []

/-- The same for a branch that may be missing. -/
def declaredOption : Option Stmt → List Nat
  | none => []
  | some stmt => stmt.declared

/-- The same for the statements of a block. -/
def declaredAll : List Stmt → List Nat
  | [] => []
  | stmt :: rest => stmt.declared ++ declaredAll rest

end

theorem declares_events (expr : Expr) (vars : Set Nat) (outcome : Outcome) :
    (Behaviour.straight outcome expr.events).Declares vars :=
  .straight fun id declares => absurd declares (expr.not_declare_mem_events id)

/-- An execution declares the variables of the statement only. -/
theorem declares_behaviour (stmt : Stmt) :
    stmt.behaviour.Declares {id | id ∈ stmt.declared} := by
  induction stmt using Stmt.induction with
  | varDecl decl =>
      refine .straight fun id declares => ?_
      rcases List.mem_append.mp declares with inValue | rest
      · cases value : decl.value with
        | none => simp [optionEvents, value] at inValue
        | some expr =>
            rw [value] at inValue
            exact absurd inValue (expr.not_declare_mem_events id)
      · rcases List.mem_cons.mp rest with same | write
        · simpa [declared] using Event.declare.inj same
        · split at write <;> simp at write
  | varAssign assign =>
      refine .straight fun id declares => ?_
      simp [Expr.not_declare_mem_events] at declares
  | block base statements statementsHypothesis =>
      simp only [behaviour, declared]
      induction statements with
      | nil => exact .straight nofun
      | cons stmt rest inductionHypothesis =>
          rw [List.forall_mem_cons] at statementsHypothesis
          simp only [behaviourAll, declaredAll]
          refine .seq (statementsHypothesis.1.mono ?_)
            ((inductionHypothesis statementsHypothesis.2).mono ?_)
          · exact fun id inFirst => List.mem_append_left _ inFirst
          · exact fun id inRest => List.mem_append_right _ inRest
  | ifStmt base condition branchThen branchElse thenHypothesis elseHypothesis =>
      refine .seq (declares_events condition _ _) (.choice (thenHypothesis.mono ?_) ?_)
      · exact fun id inThen => List.mem_append_left _ inThen
      · cases branchElse with
        | none => exact .straight nofun
        | some stmt =>
            exact (elseHypothesis stmt rfl).mono
              fun id inElse => List.mem_append_right _ inElse
  | whileStmt base condition branchDo doHypothesis =>
      exact .loop (declares_events condition _ _) doHypothesis
  | funcDecl func body bodyHypothesis => exact .straight nofun
  | returnStmt base value =>
      refine .straight fun id declares => ?_
      cases value with
      | none => cases declares
      | some expr => exact absurd declares (expr.not_declare_mem_events id)
  | expression expr => exact declares_events expr _ _

/-- A statement that always returns never ends normally. -/
theorem not_normal_of_alwaysReturns {stmt : Stmt} (returns : stmtAlwaysReturns stmt)
    (trace : List (Event Nat)) : ¬ stmt.behaviour .normal trace := by
  induction stmt using Stmt.induction generalizing trace with
  | block base statements statementsHypothesis =>
      simp only [behaviour]
      unfold stmtAlwaysReturns at returns
      induction statements generalizing trace with
      | nil => cases returns
      | cons stmt rest inductionHypothesis =>
          rw [List.forall_mem_cons] at statementsHypothesis
          rintro (⟨abnormal, -⟩ | ⟨start, others, first, second, rfl⟩)
          · exact abnormal rfl
          · rcases Bool.or_eq_true_iff.mp returns with here | there
            · exact statementsHypothesis.1 here start first
            · exact inductionHypothesis statementsHypothesis.2 others there second
  | ifStmt base condition branchThen branchElse thenHypothesis elseHypothesis =>
      cases branchElse with
      | none => simp [stmtAlwaysReturns] at returns
      | some stmt =>
          simp only [stmtAlwaysReturns, Bool.and_eq_true] at returns
          rintro (⟨abnormal, -⟩ | ⟨start, others, -, second | second, rfl⟩)
          · exact abnormal rfl
          · exact thenHypothesis returns.1 others second
          · exact elseHypothesis stmt rfl returns.2 others second
  | returnStmt base value => simp [behaviour, Behaviour.straight]
  | varDecl | varAssign | whileStmt | funcDecl | expression => cases returns

theorem not_normal_of_optionAlwaysReturns {branch : Option Stmt}
    (returns : optionAlwaysReturns branch) (trace : List (Event Nat)) :
    ¬ behaviourOption branch .normal trace := by
  cases branch with
  | none => cases returns
  | some stmt => exact not_normal_of_alwaysReturns returns trace

end Stmt

end Sulfur
