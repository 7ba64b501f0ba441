import Sulfur.Ir.Generate
import Sulfur.Semantic.Acceptance

/-!
# The top level

The context that the lowering of a program starts with has no array to push
operations to.  Nothing is pushed through it when every declaration at the top
level is a function, and the parser also takes variables after a qualifier.
-/

namespace Sulfur

/-- The first token after the qualifiers that a parser stands on. -/
def Parser.declarationHead (p : Parser) : TokenType :=
  (((p.tokens.drop p.current).dropWhile (·.type.isQual)).headD
    (p.tokens.getLastD default)).type

/-- The loop of `sf_parse`, with the token that every declaration has after its
qualifiers. -/
def declarationHeadsLoop : Nat → ParseM (List TokenType)
  | 0 => failure
  | fuel + 1 => do
      let token ← parserPeek
      if token.type ≠ .eof then
        let start ← get
        match ← parseTopLevel fuel with
        | some (.statement _) =>
            return start.declarationHead :: (← declarationHeadsLoop fuel)
        | some (.importNode _) => declarationHeadsLoop fuel
        | none =>
            if (← get).current = start.current then
              let _ ← parserAdvance
            declarationHeadsLoop fuel
      else
        return []

/-- The tokens that the declarations of a program have after their
qualifiers. -/
def declarationHeads (tokens : List Token) (filename : String) : List TokenType :=
  if tokens.isEmpty then
    []
  else
    ((declarationHeadsLoop (parseFuel tokens)
      { tokens := tokens, filename := filename }).map Prod.fst).getD []

theorem Parser.declarationHead_skip {p : Parser} (qual : p.peek.type.isQual) :
    (p.skip 1).declarationHead = p.declarationHead := by
  unfold declarationHead skip
  dsimp only
  rcases Nat.lt_or_ge p.current p.tokens.length with inside | outside
  · have here : p.tokens[p.current].type.isQual := by
      simpa [peek, peekAt, inside] using qual
    rw [List.drop_eq_getElem_cons inside, List.dropWhile_cons, if_pos here]
  · rw [List.drop_eq_nil_of_le outside, List.drop_eq_nil_of_le (by omega)]

theorem Parser.declarationHead_eq {p : Parser} (other : p.peek.type.isQual = false) :
    p.declarationHead = p.peek.type := by
  unfold declarationHead
  rcases Nat.lt_or_ge p.current p.tokens.length with inside | outside
  · have peek : p.peek = p.tokens[p.current] := by simp [peek, peekAt, inside]
    rw [peek] at other ⊢
    rw [List.drop_eq_getElem_cons inside, List.dropWhile_cons, other]
    rfl
  · rw [List.drop_eq_nil_of_le outside]
    simp [peek, peekAt, outside]

/-- A qualifier, reported when it is repeated, and the qualifiers after it. -/
theorem declarationHead_of_qualifier {p : Parser} (qual : p.peek.type.isQual)
    {repeated : Bool} {next : ParseM Qualifiers} {result : Qualifiers × Parser}
    (rest : ∀ {q : Parser}, next q = some result →
      result.2.peek.type = q.declarationHead)
    (run : (do
        if repeated then
          reportRepeatedQual p.peek
        let _ ← parserAdvance
        next) p = some result) :
    result.2.peek.type = p.declarationHead := by
  have notEof : p.peek.type ≠ .eof := by
    intro eof
    rw [eof] at qual
    cases qual
  cases repeated with
  | false =>
      have next : next p.advanced = some result := run
      rw [rest next, Parser.advanced, if_pos notEof, Parser.declarationHead_skip qual]
  | true =>
      obtain ⟨⟨⟩, q, reported, run⟩ := ParseM.bind_eq_some (reportRepeatedQual _) run
      obtain ⟨diagnostic, rfl⟩ : ∃ diagnostic, q = p.report diagnostic :=
        ⟨_, (Prod.mk.inj (Option.some.inj reported)).2.symm⟩
      have next : next (p.report diagnostic).advanced = some result := run
      rw [rest next, Parser.advanced,
        if_pos (show (p.report diagnostic).peek.type ≠ .eof from notEof),
        Parser.declarationHead_skip (p := p.report diagnostic) qual]
      rfl

/-- The qualifier loop stops at the token after the qualifiers. -/
theorem parseQualifiersLoop_peek {fuel : Nat} {quals : Qualifiers} {p : Parser}
    {result : Qualifiers × Parser}
    (run : parseQualifiersLoop fuel quals p = some result) :
    result.2.peek.type = p.declarationHead := by
  induction fuel generalizing quals p with
  | zero => cases run
  | succ fuel inductionHypothesis =>
      obtain ⟨token, q, peeked, run⟩ := ParseM.bind_eq_some parserPeek run
      obtain ⟨rfl, rfl⟩ := Prod.mk.inj (Option.some.inj peeked)
      cases type : p.peek.type
      case kwMut =>
        rw [type] at run
        exact declarationHead_of_qualifier (by rw [type]; rfl) inductionHypothesis run
      case kwPub =>
        rw [type] at run
        exact declarationHead_of_qualifier (by rw [type]; rfl) inductionHypothesis run
      case kwExtern =>
        rw [type] at run
        exact declarationHead_of_qualifier (by rw [type]; rfl) inductionHypothesis run
      all_goals
        rw [type] at run
        obtain rfl := Option.some.inj run
        rw [Parser.declarationHead_eq (by rw [type]; rfl), type]

/-- What `parse_decl` returns depends on the token after the qualifiers. -/
theorem parseDecl_isFuncDecl {fuel : Nat} {p q : Parser} {stmt : Stmt}
    (run : parseDecl fuel p = some (some stmt, q)) :
    stmt.isFuncDecl ↔ p.declarationHead = .kwFn := by
  cases fuel with
  | zero => cases run
  | succ fuel =>
      obtain ⟨quals, middle, qualifiers, run⟩ :=
        ParseM.bind_eq_some (parseQualifiers fuel) run
      have head := parseQualifiersLoop_peek qualifiers
      obtain ⟨token, after, peeked, run⟩ :=
        ParseM.bind_eq_some parserPeek run
      obtain ⟨rfl, rfl⟩ := Prod.mk.inj (Option.some.inj peeked)
      dsimp only at head
      rw [← head]
      by_cases fn : middle.peek.type = .kwFn
      · have parsed : parseFuncDecl fuel quals middle = some (some stmt, q) := by
          simpa [TokenType.isFn, fn] using run
        have isFunction := (statementYields fuel).funcDecl quals middle _ parsed
        simp [fn, (isFunction stmt rfl).2]
      · have notFn : middle.peek.type.isFn = false := by simp [TokenType.isFn, fn]
        cases type : middle.peek.type.isType with
        | true =>
            have parsed : parseVarDecl fuel quals middle = some (some stmt, q) := by
              simpa [notFn, type] using run
            have isVariable := parseVarDecl_yields fuel quals middle _ parsed
            have isVarDecl := (isVariable stmt rfl).2
            cases stmt <;> simp_all [Stmt.isVarDecl, Stmt.isFuncDecl]
        | false =>
            rw [notFn, type] at run
            obtain ⟨_, _, -, run⟩ := ParseM.bind_eq_some
              (parserReportUnexpected _ _ _) run
            obtain ⟨_, _, -, run⟩ := ParseM.bind_eq_some
              parserRecoverStatement run
            cases run

theorem parseTopLevel_isFuncDecl {fuel : Nat} {p q : Parser} {stmt : Stmt}
    (run : parseTopLevel fuel p = some (some (.statement stmt), q)) :
    stmt.isFuncDecl ↔ p.declarationHead = .kwFn := by
  obtain ⟨token, middle, peeked, run⟩ :=
    ParseM.bind_eq_some parserPeek run
  obtain ⟨rfl, rfl⟩ := Prod.mk.inj (Option.some.inj peeked)
  cases declares : p.peek.type.isFn || p.peek.type.isQual with
  | true =>
      rw [declares, if_pos rfl] at run
      obtain ⟨node, after, parsed, run⟩ :=
        ParseM.bind_eq_some (parseDecl fuel) run
      cases node with
      | none =>
          obtain ⟨_, _, -, run⟩ :=
            ParseM.bind_eq_some parserRecoverTopLevel run
          cases run
      | some node =>
          obtain ⟨rfl, rfl⟩ : node = stmt ∧ after = q := by
            simpa using (Option.some.inj run)
          exact parseDecl_isFuncDecl parsed
  | false =>
      rw [declares, if_neg Bool.false_ne_true] at run
      cases imports : p.peek.type.isImport with
      | true =>
          rw [imports, if_pos rfl] at run
          obtain ⟨node, after, -, run⟩ :=
            ParseM.bind_eq_some (parseImport fuel) run
          cases node with
          | none =>
              obtain ⟨_, _, -, run⟩ :=
                ParseM.bind_eq_some parserRecoverTopLevel run
              cases run
          | some node => cases run
      | false =>
          rw [imports, if_neg Bool.false_ne_true] at run
          obtain ⟨_, _, -, run⟩ := ParseM.bind_eq_some (modify _) run
          obtain ⟨_, _, -, run⟩ :=
            ParseM.bind_eq_some parserRecoverTopLevel run
          cases run

/-- A statement and the token that its declaration has after the qualifiers. -/
def FnHead (stmt : Stmt) (head : TokenType) : Prop :=
  stmt.isFuncDecl ↔ head = .kwFn

theorem parseLoop_heads {fuel : Nat} {program : Program} {p : Parser}
    {result : Program × Parser} (run : parseLoop fuel program p = some result) :
    ∃ heads new, declarationHeadsLoop fuel p = some (heads, result.2) ∧
      result.1.statements = program.statements ++ new ∧
      List.Forall₂ FnHead new heads := by
  induction fuel generalizing program p with
  | zero => cases run
  | succ fuel inductionHypothesis =>
      obtain ⟨token, middle, peeked, run⟩ :=
        ParseM.bind_eq_some parserPeek run
      obtain ⟨rfl, rfl⟩ := Prod.mk.inj (Option.some.inj peeked)
      by_cases eof : p.peek.type = .eof
      · have done : (pure program : ParseM Program) p = some result := by
          simpa [eof] using run
        obtain rfl := Option.some.inj done
        refine ⟨[], [], ?_, by simp, .nil⟩
        refine (ParseM.bind_of_eq_some parserPeek rfl).trans ?_
        rw [if_neg (by simpa using eof)]
        rfl
      · rw [if_pos eof] at run
        have enter : declarationHeadsLoop (fuel + 1) p = _ :=
          ParseM.bind_of_eq_some parserPeek rfl
        rw [if_pos eof] at enter
        replace enter := enter.trans (ParseM.bind_of_eq_some get rfl)
        obtain ⟨start, q, here, run⟩ := ParseM.bind_eq_some get run
        obtain ⟨rfl, rfl⟩ := Prod.mk.inj (Option.some.inj here)
        obtain ⟨node, q, parsed, run⟩ :=
          ParseM.bind_eq_some (parseTopLevel fuel) run
        replace enter := enter.trans
          (ParseM.bind_of_eq_some (parseTopLevel fuel) parsed)
        match node, parsed with
        | some (.statement stmt), parsed =>
            obtain ⟨heads, new, headsRun, statements, related⟩ :=
              inductionHypothesis run
            refine ⟨p.declarationHead :: heads, stmt :: new, ?_, ?_,
              .cons (parseTopLevel_isFuncDecl parsed) related⟩
            · exact enter.trans
                (ParseM.bind_of_eq_some (declarationHeadsLoop fuel) headsRun)
            · rw [statements]
              simp [Program.add]
        | some (.importNode node), parsed =>
            obtain ⟨heads, new, headsRun, statements, related⟩ :=
              inductionHypothesis run
            exact ⟨heads, new, enter.trans headsRun, statements, related⟩
        | none, parsed =>
            obtain ⟨current, r, here, run⟩ := ParseM.bind_eq_some get run
            obtain ⟨rfl, rfl⟩ := Prod.mk.inj (Option.some.inj here)
            replace enter := enter.trans (ParseM.bind_of_eq_some get rfl)
            -- both loops step over a token that nothing consumed
            by_cases stays : q.current = p.current
            · rw [if_pos stays] at run enter
              have rest : parseLoop fuel program q.advanced = some result := run
              obtain ⟨heads, new, headsRun, statements, related⟩ :=
                inductionHypothesis rest
              exact ⟨heads, new, enter.trans headsRun, statements, related⟩
            · rw [if_neg stays] at run enter
              have rest : parseLoop fuel program q = some result := run
              obtain ⟨heads, new, headsRun, statements, related⟩ :=
                inductionHypothesis rest
              exact ⟨heads, new, enter.trans headsRun, statements, related⟩

theorem parse_heads {tokens : List Token} {filename : String} {parsed : Parsed}
    (run : parse tokens filename = some parsed) :
    List.Forall₂ FnHead parsed.program.statements
      (declarationHeads tokens filename) := by
  unfold parse at run
  unfold declarationHeads
  split at run
  · rename_i empty
    obtain rfl := Option.some.inj run
    rw [if_pos empty]
    exact .nil
  · rename_i nonempty
    obtain ⟨result, loop, rfl⟩ := Option.map_eq_some_iff.mp run
    obtain ⟨heads, new, headsRun, statements, related⟩ := parseLoop_heads loop
    rw [if_neg nonempty, headsRun]
    simpa [statements] using related

/-- Every declaration of a program is a function when every one of them has `fn`
after its qualifiers. -/
theorem forall_isFuncDecl_iff {statements : List Stmt} {heads : List TokenType}
    (related : List.Forall₂ FnHead statements heads) :
    (∀ stmt ∈ statements, stmt.isFuncDecl) ↔ ∀ head ∈ heads, head = .kwFn := by
  induction related with
  | nil => simp
  | cons first _ inductionHypothesis =>
      rw [List.forall_mem_cons, List.forall_mem_cons, inductionHypothesis]
      exact and_congr_left' first

/-! ## The analyser keeps the kind of a statement -/

theorem isFuncDecl_analyzeVarDecl (s : Semantic) (decl : VarDecl) :
    (analyzeVarDecl s decl).node.isFuncDecl = false := by
  unfold analyzeVarDecl
  dsimp only
  split
  · rfl
  split
  · rfl
  split
  · rfl
  unfold analyzeInitialiser
  split
  · rfl
  dsimp only
  split
  · rfl
  split <;> rfl

theorem isFuncDecl_analyzeVarAssign (s : Semantic) (assign : VarAssign) :
    (analyzeVarAssign s assign).node.isFuncDecl = false := by
  unfold analyzeVarAssign
  split
  · rfl
  dsimp only
  split
  · rfl
  split <;> rfl

theorem isFuncDecl_analyzeIf (s : Semantic) (base : Base) (condition : Expr)
    (branchThen : Stmt) (branchElse : Option Stmt)
    (analyzeThen : Semantic → StmtAnalysis)
    (analyzeElse : Semantic → Semantic × Option Stmt × Log) :
    (analyzeIf s base condition branchThen branchElse analyzeThen
      analyzeElse).node.isFuncDecl = false := by
  unfold analyzeIf
  dsimp only
  split <;> rfl

theorem isFuncDecl_analyzeWhile (s : Semantic) (base : Base) (condition : Expr)
    (branchDo : Stmt) (analyzeDo : Semantic → StmtAnalysis) :
    (analyzeWhile s base condition branchDo analyzeDo).node.isFuncDecl = false := by
  unfold analyzeWhile
  dsimp only
  split <;> rfl

theorem isFuncDecl_analyzeFuncDecl (s : Semantic) (func : FuncDecl)
    (body : Option Stmt) (analyzeBody : Option (Semantic → StmtAnalysis)) :
    (analyzeFuncDecl s func body analyzeBody).node.isFuncDecl = true := by
  unfold analyzeFuncDecl
  dsimp only
  split
  · rfl
  split
  · rfl
  cases analyzeBody <;> rfl

theorem isFuncDecl_analyzeReturn (s : Semantic) (base : Base)
    (value : Option Expr) :
    (analyzeReturn s base value).node.isFuncDecl = false := by
  unfold analyzeReturn
  split
  · rfl
  split
  · rfl
  split <;> rfl

theorem isFuncDecl_analyzeStatement (stmt : Stmt) (s : Semantic) :
    (analyzeStatement stmt s).node.isFuncDecl = stmt.isFuncDecl := by
  cases stmt with
  | varDecl decl => exact isFuncDecl_analyzeVarDecl s decl
  | varAssign assign => exact isFuncDecl_analyzeVarAssign s assign
  | block base statements => simp [analyzeStatement, Stmt.isFuncDecl]
  | ifStmt base condition branchThen branchElse =>
      rw [analyzeStatement]
      exact isFuncDecl_analyzeIf ..
  | whileStmt base condition branchDo =>
      rw [analyzeStatement]
      exact isFuncDecl_analyzeWhile ..
  | funcDecl func body =>
      unfold analyzeStatement
      exact isFuncDecl_analyzeFuncDecl ..
  | returnStmt base value => exact isFuncDecl_analyzeReturn s base value
  | expression expr => rfl

theorem forall_isFuncDecl_analyzeStatements (statements : List Stmt)
    (s : Semantic) :
    (∀ stmt ∈ (analyzeStatements statements s).nodes, stmt.isFuncDecl) ↔
      ∀ stmt ∈ statements, stmt.isFuncDecl := by
  induction statements generalizing s with
  | nil => simp [analyzeStatements]
  | cons stmt rest inductionHypothesis =>
      simp only [analyzeStatements, List.forall_mem_cons, isFuncDecl_analyzeStatement,
        inductionHypothesis]

end Sulfur

namespace Sulfur.Ir

/-- Lowering function declarations pushes nothing. -/
theorem operations_generateBlock {statements : List Stmt}
    (functions : ∀ stmt ∈ statements, stmt.isFuncDecl) (nextTemp : Nat)
    (program : IrProgram) :
    (generateBlock statements nextTemp program).operations = [] := by
  induction statements generalizing nextTemp program with
  | nil => simp [generateBlock]
  | cons stmt rest inductionHypothesis =>
      rw [List.forall_mem_cons] at functions
      cases stmt with
      | funcDecl func body =>
          cases body <;>
            simp [generateBlock, generateStatement, inductionHypothesis functions.2]
      | _ => cases functions.1

/-- For an accepted program nothing is pushed outside a function, and every
statement that is lowered at the top level declares a function, exactly when
every declaration has `fn` after its qualifiers. -/
theorem irGenerate_inside_functions_iff {tokens : List Token} {parsed : Parsed}
    {program : Program} {filename : String} {options : CompilerOptions}
    {modules : List Module} {analysis : ProgramAnalysis}
    (run : parse tokens filename = some parsed)
    (statements : program.statements = parsed.program.statements)
    (accepted : Accepted program filename options modules analysis) :
    (irGenerate analysis.program).programOperations = [] ∧
        (∀ stmt ∈ analysis.program.statements, stmt.isFuncDecl) ↔
      ∀ head ∈ declarationHeads tokens filename, head = .kwFn := by
  have heads := forall_isFuncDecl_iff (parse_heads run)
  obtain ⟨imports, -, analyzed⟩ := Option.bind_eq_some_iff.mp accepted.analyzed
  have kept : (∀ stmt ∈ analysis.program.statements, stmt.isFuncDecl) ↔
      ∀ stmt ∈ parsed.program.statements, stmt.isFuncDecl := by
    obtain rfl := Option.some.inj analyzed
    rw [← statements]
    exact forall_isFuncDecl_analyzeStatements _ _
  rw [← heads, ← kept]
  refine ⟨And.right, fun functions => ⟨?_, functions⟩⟩
  exact operations_generateBlock functions 0 {}

/-- A program with a variable at the top level. -/
def globalSource : String :=
  "mut i32 g = 5; fn main() i32 { return 0; }"

theorem isSome_compileFrontend_global :
    (compileFrontend globalSource "main.su" {}).isSome := by
  decide

/-- The analysis of that program. -/
def globalAnalysis : ProgramAnalysis :=
  (compileFrontend globalSource "main.su" {}).get isSome_compileFrontend_global

/-- The assignment of the initial value is pushed outside every function. -/
theorem irGenerate_global_differs :
    (∃ program, Accepted program "main.su" {} [] globalAnalysis) ∧
      (irGenerate globalAnalysis.program).programOperations ≠ [] ∧
      ∃ stmt ∈ globalAnalysis.program.statements, stmt.isFuncDecl = false := by
  refine ⟨accepted_of_compileFrontend (Option.some_get _).symm, ?_, ?_⟩
  · have pushed :
        (irGenerate globalAnalysis.program).programOperations.length = 1 := by
      decide
    exact List.ne_nil_of_length_pos (by omega)
  · have other :
        globalAnalysis.program.statements.all Stmt.isFuncDecl = false := by
      decide
    simpa using other

theorem irGenerate_inside_functions_iff_global :
    (irGenerate globalAnalysis.program).programOperations = [] ∧
        (∀ stmt ∈ globalAnalysis.program.statements, stmt.isFuncDecl) ↔
      ∀ head ∈ declarationHeads (tokenize globalSource.toList "main.su").tokens
        "main.su", head = .kwFn := by
  obtain ⟨parsed, run, accepted⟩ :=
    parsed_of_compileFrontend (Option.some_get isSome_compileFrontend_global).symm
  exact irGenerate_inside_functions_iff run rfl accepted

end Sulfur.Ir
