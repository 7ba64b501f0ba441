import Sulfur.Frontend.Lexeme
import Sulfur.Frontend.Parser.Soundness

/-!
# What the parser leaves out

A parse that logs no error has read every token, with one exception: an import
whose path does not fit its buffer is dropped without a word, and the tokens that
the recovery skips behind it are lost as well.
-/

namespace Sulfur

/-! ## Imports -/

/-- The characters of an import path that the tokens behind `import` stand for. -/
def pathLength : List Token → Nat
  | [] => 0
  | token :: rest =>
      if token.type = .semicolon then 0
      else if token.type = .dot then pathLength rest + 1
      else pathLength rest + token.value.length

/-- The buffer of an import statement holds its path and the extension. -/
def PathFits (tokens : List Token) : Prop :=
  pathLength tokens + ".slfr".length < importPathSize

/-- Every import path in a list of tokens fits its buffer. -/
def PathsFit : List Token → Prop
  | [] => True
  | token :: rest => (token.type = .kwImport → PathFits rest) ∧ PathsFit rest

instance (tokens : List Token) : Decidable (PathFits tokens) :=
  inferInstanceAs (Decidable (_ < _))

instance PathsFit.decidable : (tokens : List Token) → Decidable (PathsFit tokens)
  | [] => inferInstanceAs (Decidable True)
  | token :: rest =>
      have := PathsFit.decidable rest
      inferInstanceAs
        (Decidable ((token.type = .kwImport → PathFits rest) ∧ PathsFit rest))

theorem PathsFit.suffix {tokens last : List Token} (fits : PathsFit tokens)
    (suffix : last <:+ tokens) : PathsFit last := by
  rcases suffix with ⟨before, rfl⟩
  induction before with
  | nil => exact fits
  | cons token before inductionHypothesis => exact inductionHypothesis fits.2

/-- The tokens of a path behind some of its names, where a name comes next or
not. -/
inductive PathRest : Bool → String → List Token → Prop
  | done : PathRest false "" []
  | name {token : Token} {path : String} {tokens : List Token}
      (isName : token.type = .identifier) (rest : PathRest false path tokens) :
      PathRest true (token.value ++ path) (token :: tokens)
  | dot {token : Token} {path : String} {tokens : List Token}
      (isDot : token.type = .dot) (rest : PathRest true path tokens) :
      PathRest false ("/" ++ path) (token :: tokens)

theorem PathRest.spelled {expectsName : Bool} {path : String} {tokens : List Token}
    (rest : PathRest expectsName path tokens) :
    match expectsName with
    | true => PathSpelled path tokens
    | false => ∀ token : Token, token.type = .identifier →
        PathSpelled (token.value ++ path) (token :: tokens) := by
  induction rest with
  | done =>
      intro token isName
      rw [String.append_empty]
      exact .file isName
  | name isName rest inductionHypothesis => exact inductionHypothesis _ isName
  | dot isDot rest inductionHypothesis =>
      intro token isName
      rw [← String.append_assoc]
      exact .directory isName isDot inductionHypothesis

/-- The outcome of the path loop: the path and the tokens up to the semicolon, or
an error, or a path that is too long. -/
def ReadsPath (path : String) (expectsName : Bool) (p : Parser) :
    Option String → Parser → Prop
  | none, q => p.Lost q ∨ p.Moves q ∧ importPathSize ≤ path.length + pathLength p.rest
  | some whole, q =>
      ∃ tail consumed semicolon, whole = path ++ tail ∧
        PathRest expectsName tail consumed ∧ semicolon.type = .semicolon ∧
        p.Reached 1 (consumed ++ [semicolon]) q ∧ tail.length = pathLength p.rest

namespace ReadsPath

variable {path part : String} {before after : Bool} {p q r : Parser}
  {result : Option String} {token : Token}

/-- The loop has passed a name or a dot. -/
theorem step (reads : ReadsPath (path ++ part) after q result r)
    (reached : p.Reached 1 [token] q)
    (further : ∀ tail tokens, PathRest after tail tokens →
      PathRest before (part ++ tail) (token :: tokens))
    (length : pathLength p.rest = part.length + pathLength q.rest) :
    ReadsPath path before p result r := by
  cases result with
  | none =>
      rcases reads with lost | ⟨moves, tooLong⟩
      · exact .inl (reached.lost lost)
      · refine .inr ⟨reached.moves.trans moves, ?_⟩
        rw [String.length_append] at tooLong
        omega
  | some whole =>
      rcases reads with ⟨tail, consumed, semicolon, rfl, rest, isSemicolon, passed, same⟩
      refine ⟨part ++ tail, token :: consumed, semicolon, String.append_assoc, further _ _ rest,
        isSemicolon, (reached.then_ passed).weaken (by omega), ?_⟩
      rw [String.length_append, length, same]

end ReadsPath

theorem parseImportLoop_reads {fuel : Nat} {p : Parser} {path : String}
    {expectsName : Bool} (placed : p.Placed) (enough : p.rest.length ≤ fuel) :
    Runs (parseImportLoop fuel path expectsName) p (ReadsPath path expectsName p) := by
  induction fuel generalizing p path expectsName with
  | zero =>
      have := placed.length_rest
      omega
  | succ fuel inductionHypothesis =>
      have passed := placed.length_rest
      have length : pathLength p.rest =
          if p.peek.type = .semicolon then 0
          else if p.peek.type = .dot then pathLength (p.skip 1).rest + 1
          else pathLength (p.skip 1).rest + p.peek.value.length := by
        rw [placed.rest_eq]
        rfl
      unfold parseImportLoop
      apply Runs.peek
      split
      · rename_i isSemicolon
        split
        · apply Runs.reportUnexpected placed
          intro q lost
          exact .pure (.inl lost)
        · rename_i noName
          have notEnd : p.peek.type ≠ .eof := by simp [isSemicolon]
          apply Runs.advance notEnd
          rw [if_pos isSemicolon] at length
          refine .pure ⟨"", [], p.peek, String.append_empty.symm, ?_, isSemicolon,
            .token placed notEnd, length.symm⟩
          rw [Bool.eq_false_iff.mpr noName]
          exact .done
      · rename_i notSemicolon
        rw [if_neg notSemicolon] at length
        split
        · rename_i expects
          split
          · apply Runs.reportUnexpected placed
            intro q lost
            exact .pure (.inl lost)
          · rename_i isName
            have isName := not_not.mp isName
            have notEnd : p.peek.type ≠ .eof := by simp [isName]
            rw [if_neg (by simp [isName])] at length
            apply Runs.advance notEnd
            split
            · exact .pure (.inr ⟨.skip placed notEnd, by omega⟩)
            · refine (inductionHypothesis (placed.skip notEnd) (by omega)).mono ?_
              intro result q reads
              apply reads.step (.token placed notEnd)
              · intro tail tokens rest
                rw [expects]
                exact .name isName rest
              · omega
        · rename_i noName
          split
          · apply Runs.reportUnexpected placed
            intro q lost
            exact .pure (.inl lost)
          · rename_i isDot
            have isDot := not_not.mp isDot
            have notEnd : p.peek.type ≠ .eof := by simp [isDot]
            rw [if_pos isDot] at length
            apply Runs.advance notEnd
            split
            · exact .pure (.inr ⟨.skip placed notEnd, by omega⟩)
            · refine (inductionHypothesis (placed.skip notEnd) (by omega)).mono ?_
              intro result q reads
              apply reads.step (.token placed notEnd)
              · intro tail tokens rest
                rw [Bool.eq_false_iff.mpr noName]
                exact .dot isDot rest
              · rw [length, Nat.add_comm]
                rfl

/-! ## Programs -/

/-- The path of an import, with its extension, fits the buffer. -/
def TopLevel.Fits : TopLevel → Prop
  | .importNode node => node.path.length < importPathSize
  | .statement _ => True

/-- No import path was cut to the size of its buffer. -/
def Program.ImportsFit (program : Program) : Prop :=
  ∀ node ∈ program.imports, node.path.length < importPathSize

/-- The outcome of a top-level declaration: it has been read, or an error has
been logged, or the path of an import was too long. -/
def ReadsItem (p : Parser) : Option TopLevel → Parser → Prop
  | none, q => p.Lost q ∨ p.Moves q ∧ ¬PathsFit p.rest
  | some item, q =>
      ∃ consumed, p.Reached 1 consumed q ∧ item.Fits ∧ (q.Clean → item.Spelled consumed)

theorem parseImport_reads {fuel : Nat} {p : Parser} (placed : p.Placed)
    (isImport : p.peek.type = .kwImport) (enough : p.rest.length ≤ fuel) :
    Runs (parseImport fuel) p fun result q => ReadsItem p (result.map .importNode) q := by
  have notEnd : p.peek.type ≠ .eof := by simp [isImport]
  have first := Parser.Reached.token placed notEnd
  have tooLong : ¬PathFits (p.skip 1).rest → ¬PathsFit p.rest := by
    rw [placed.rest_eq]
    exact fun unfit fits => unfit (fits.1 isImport)
  have passed := first.passed
  unfold parseImport
  apply Runs.peek
  apply Runs.expect placed
  · intro
    apply (parseImportLoop_reads first.placed (by omega)).andThen
    intro result q reads
    cases result with
    | none =>
        refine .pure ?_
        rcases reads with lost | ⟨moves, long⟩
        · exact .inl (first.lost lost)
        · refine .inr ⟨first.moves.trans moves, tooLong ?_⟩
          unfold PathFits
          rw [String.length_empty] at long
          omega
    | some path =>
        rcases reads with ⟨tail, consumed, semicolon, rfl, rest, isSemicolon, second, length⟩
        have spelled : PathSpelled tail consumed := rest.spelled
        rw [String.empty_append]
        dsimp only
        split
        · rename_i long
          refine .pure (.inr ⟨first.moves.trans second.moves, tooLong ?_⟩)
          unfold PathFits
          omega
        · rename_i short
          refine .pure ⟨_, (first.then_ second).weaken (by omega), ?_, ?_⟩
          · change (tail ++ ".slfr").length < importPathSize
            rw [String.length_append]
            omega
          · intro
            exact .importNode (.mk isImport spelled isSemicolon)
  · intro q lost
    exact .pure (.inl lost)

theorem ReadsItem.recover {p q r : Parser} (reads : ReadsItem p none q) (moves : q.Moves r) :
    ReadsItem p none r := by
  rcases reads with lost | ⟨first, unfit⟩
  · exact .inl (lost.then_ moves)
  · exact .inr ⟨first.trans moves, unfit⟩

theorem ReadsItem.moves {p q : Parser} {result : Option TopLevel}
    (reads : ReadsItem p result q) : p.Moves q := by
  cases result with
  | none =>
      rcases reads with lost | ⟨moves, -⟩
      · exact lost.1
      · exact moves
  | some item =>
      rcases reads with ⟨consumed, reached, -⟩
      exact reached.moves

theorem Runs.giveUpItem {p q : Parser} (reads : ReadsItem p none q) :
    Runs (do parserRecoverTopLevel; return none) q (ReadsItem p) := by
  apply Runs.recoverTopLevel reads.moves.placed
  intro r moves
  exact .pure (reads.recover moves)

theorem parseTopLevel_reads {fuel : Nat} {p : Parser} (placed : p.Placed)
    (enough : 16 * p.rest.length + 3 ≤ fuel) :
    Runs (parseTopLevel fuel) p (ReadsItem p) := by
  unfold parseTopLevel
  apply Runs.peek
  split
  · rename_i starts
    apply Runs.read ((statementReads fuel).decl p placed enough)
    · intro q lost
      exact .giveUpItem (.inl lost)
    · intro stmt q consumed reached spelled
      refine .pure ⟨consumed, reached, trivial, fun clean => ?_⟩
      refine .statement ⟨p.peek, ?_, starts⟩ (spelled clean)
      have split := reached.split clean
      have passed := reached.passed
      cases consumed with
      | nil =>
          rw [split, List.nil_append] at passed
          omega
      | cons token consumed =>
          rw [placed.rest_eq, List.cons_append] at split
          rw [(List.cons_eq_cons.mp split).1]
          exact rfl
  · split
    · rename_i isImport
      apply (parseImport_reads placed (by simpa [TokenType.isImport] using isImport)
        (by omega)).andThen
      intro result q reads
      cases result with
      | none => exact .giveUpItem reads
      | some node => exact .pure reads
    · exact Runs.update (.giveUpItem (.inl (.report placed rfl)))

/-- The outcome of the top-level loop.  The imports of the program have paths that
fit, and where all paths in front of the cursor do, the tokens up to the end of
file spell what has been added to the program. -/
def ReadsProgram (before : Program) (p : Parser) (after : Program) (q : Parser) : Prop :=
  p.Moves q ∧ q.peek.type = .eof ∧ (before.ImportsFit → after.ImportsFit) ∧
    (q.Clean → PathsFit p.rest → ∃ consumed, p.rest = consumed ++ q.rest ∧
      ∀ tokens, before.Spelled tokens → after.Spelled (tokens ++ consumed))

theorem Program.ImportsFit.add {program : Program} {item : TopLevel}
    (fit : program.ImportsFit) (itemFits : item.Fits) : (program.add item).ImportsFit := by
  cases item with
  | statement stmt => exact fit
  | importNode node =>
      intro other isImport
      rcases List.mem_append.mp isImport with old | new
      · exact fit other old
      · rw [List.mem_singleton.mp new]
        exact itemFits

theorem parseLoop_reads {fuel : Nat} {p : Parser} {program : Program} (placed : p.Placed)
    (enough : 16 * p.rest.length + 4 ≤ fuel) :
    Runs (parseLoop fuel program) p (ReadsProgram program p) := by
  induction fuel generalizing p program with
  | zero => omega
  | succ fuel inductionHypothesis =>
      unfold parseLoop
      apply Runs.peek
      split
      · rename_i notEnd
        apply Runs.get
        apply (parseTopLevel_reads placed (by omega)).andThen
        intro result q reads
        cases result with
        | none =>
            apply Runs.resume reads.moves notEnd
            intro r resumed shorter
            refine (inductionHypothesis resumed.placed (by omega)).mono ?_
            rintro after final ⟨moves, atEnd, fit, -⟩
            refine ⟨(reads.moves.trans resumed).trans moves, atEnd, fit, ?_⟩
            intro clean allFit
            rcases reads with lost | ⟨-, unfit⟩
            · exact absurd (resumed.clean (moves.clean clean)) lost.2
            · exact absurd allFit unfit
        | some item =>
            rcases reads with ⟨consumed, reached, itemFits, itemSpelled⟩
            have passed := reached.passed
            refine (inductionHypothesis reached.placed (by omega)).mono ?_
            rintro after final ⟨moves, atEnd, fit, spelled⟩
            refine ⟨reached.moves.trans moves, atEnd, fun before => fit (before.add itemFits), ?_⟩
            intro clean allFit
            have itemClean := moves.clean clean
            rcases spelled clean (allFit.suffix reached.moves.suffix) with
              ⟨further, split, extended⟩
            refine ⟨consumed ++ further, ?_, ?_⟩
            · rw [reached.split itemClean, split, List.append_assoc]
            · intro tokens before
              rw [← List.append_assoc]
              exact extended _ (.add before (itemSpelled itemClean))
      · rename_i atEnd
        refine .pure ⟨.refl placed, not_not.mp atEnd, id, ?_⟩
        intro _ _
        refine ⟨[], rfl, ?_⟩
        intro tokens spelled
        rw [List.append_nil]
        exact spelled

/-- `sf_parse` returns, and what it returns without logging an error is spelled by
all of its tokens when the import paths fit. -/
theorem parse_reads {tokens : List Token} (filename : String) (ended : Ended tokens) :
    ∃ parsed, parse tokens filename = some parsed ∧ parsed.program.ImportsFit ∧
      (Log.hadErrors parsed.log = false → PathsFit tokens →
        parsed.program.Spelled tokens.dropLast) := by
  have placed : Parser.Placed { tokens := tokens, filename := filename } := ended
  rcases @parseLoop_reads (parseFuel tokens) _ {} placed
    (by simp [Parser.rest, parseFuel]; omega) with
    ⟨program, q, returned, moves, atEnd, fit, spelled⟩
  refine ⟨⟨program, q.log⟩, ?_, fit (by simp [Program.ImportsFit]), ?_⟩
  · unfold parse
    rw [if_neg (by simpa using ended.ne_nil), returned]
    rfl
  · intro clean allFit
    rcases spelled clean allFit with ⟨consumed, split, extended⟩
    have last : q.rest = [q.peek] := by
      have isEnded : Ended (q.peek :: (q.skip 1).rest) := by
        rw [← moves.placed.rest_eq]
        exact moves.placed
      rw [moves.placed.rest_eq]
      rcases isEnded.cons_cases with ⟨-, nothing⟩ | ⟨notEnd, -⟩
      · rw [nothing]
      · exact absurd atEnd notEnd
    have whole : tokens = consumed ++ [q.peek] := by
      rw [← last, ← split]
      rfl
    have isSpelled := extended [] .empty
    rw [List.nil_append] at isSpelled
    rw [whole, List.dropLast_concat]
    exact isSpelled

/-! ## Imports of a spelled program -/

/-- The token list has no `import`. -/
def ImportFree (tokens : List Token) : Prop :=
  ∀ token ∈ tokens, token.type ≠ .kwImport

theorem importFree_nil : ImportFree [] :=
  List.forall_mem_nil _

theorem importFree_cons {token : Token} {tokens : List Token} :
    ImportFree (token :: tokens) ↔ token.type ≠ .kwImport ∧ ImportFree tokens :=
  List.forall_mem_cons

theorem importFree_append {first second : List Token} :
    ImportFree (first ++ second) ↔ ImportFree first ∧ ImportFree second :=
  List.forall_mem_append

theorem TokenType.ne_kwImport_of_isType {type : TokenType} (isType : type.isType) :
    type ≠ .kwImport := by
  rintro rfl
  cases isType

theorem AreQualifiers.importFree {tokens : List Token} (areQualifiers : AreQualifiers tokens) :
    ImportFree tokens := by
  intro token isToken isImport
  have isQual := areQualifiers token isToken
  rw [isImport] at isQual
  cases isQual

theorem ParametersSpelled.importFree {parameters : List Parameter} {tokens : List Token}
    (spelled : ParametersSpelled parameters tokens) : ImportFree tokens := by
  induction spelled with
  | last areQualifiers isType isName =>
      simp [importFree_append, importFree_cons, importFree_nil, areQualifiers.importFree,
        TokenType.ne_kwImport_of_isType isType, isName]
  | more areQualifiers isType isName isComma rest inductionHypothesis =>
      simp [importFree_append, importFree_cons, areQualifiers.importFree,
        TokenType.ne_kwImport_of_isType isType, isName, isComma, inductionHypothesis]

theorem ParameterListSpelled.importFree {parameters : List Parameter} {tokens : List Token}
    (spelled : ParameterListSpelled parameters tokens) : ImportFree tokens := by
  cases spelled with
  | none => exact importFree_nil
  | some spelled => exact spelled.importFree

theorem ReturnTypeSpelled.importFree {type : ValueType} {tokens : List Token}
    (spelled : ReturnTypeSpelled type tokens) : ImportFree tokens := by
  cases spelled with
  | omitted => exact importFree_nil
  | written isType =>
      exact importFree_cons.mpr ⟨TokenType.ne_kwImport_of_isType isType, importFree_nil⟩

theorem FuncDecl.Spelled.importFree {func : FuncDecl} {tokens : List Token}
    (spelled : func.Spelled tokens) : ImportFree tokens := by
  cases spelled with
  | mk areQualifiers isFn isName isOpening parameters isClosing returned =>
      simp [importFree_append, importFree_cons, areQualifiers.importFree, isFn, isName,
        isOpening, parameters.importFree, isClosing, returned.importFree]

theorem BinaryOp.token_ne_kwImport (op : BinaryOp) : op.token ≠ .kwImport := by
  cases op <;> decide

theorem BinaryOp.ne_kwImport_of_compoundToken {op : BinaryOp} {type : TokenType}
    (isOperator : op.compoundToken = some type) : type ≠ .kwImport := by
  rintro rfl
  cases op <;> cases isOperator

theorem UnaryOp.ne_kwImport_of_prefixToken {op : UnaryOp} {type : TokenType}
    (isOperator : op.prefixToken = some type) : type ≠ .kwImport := by
  rintro rfl
  cases op <;> cases isOperator

theorem UnaryOp.ne_kwImport_of_postfixToken {op : UnaryOp} {type : TokenType}
    (isOperator : op.postfixToken = some type) : type ≠ .kwImport := by
  rintro rfl
  cases op <;> cases isOperator

theorem LiteralType.token_ne_kwImport (literalType : LiteralType) :
    literalType.token ≠ .kwImport := by
  cases literalType <;> decide

/-- Imports stand at the top level only. -/
theorem Spelled.importFree {phrase : Phrase} {tokens : List Token}
    (spelled : Spelled phrase tokens) : ImportFree tokens := by
  induction spelled with
  | prefix_ isOperator _ inductionHypothesis =>
      exact importFree_cons.mpr
        ⟨UnaryOp.ne_kwImport_of_prefixToken isOperator, inductionHypothesis⟩
  | postfix_ _ isOperator inductionHypothesis =>
      simp [importFree_append, importFree_cons, importFree_nil, inductionHypothesis,
        UnaryOp.ne_kwImport_of_postfixToken isOperator]
  | cast _ isAs isType inductionHypothesis =>
      simp [importFree_append, importFree_cons, importFree_nil, inductionHypothesis, isAs,
        TokenType.ne_kwImport_of_isType isType]
  | varDecl areQualifiers isType isName isSemicolon =>
      simp [importFree_append, importFree_cons, importFree_nil, areQualifiers.importFree,
        TokenType.ne_kwImport_of_isType isType, isName, isSemicolon]
  | varInit areQualifiers isType isName isEqual _ isSemicolon inductionHypothesis =>
      simp [importFree_append, importFree_cons, importFree_nil, areQualifiers.importFree,
        TokenType.ne_kwImport_of_isType isType, isName, isEqual, inductionHypothesis,
        isSemicolon]
  | compound isName isOperator _ isSemicolon inductionHypothesis =>
      simp [importFree_append, importFree_cons, importFree_nil, isName,
        BinaryOp.ne_kwImport_of_compoundToken isOperator, inductionHypothesis, isSemicolon]
  | declared spelled isSemicolon =>
      simp [importFree_append, importFree_cons, importFree_nil, spelled.importFree,
        isSemicolon]
  | defined spelled _ inductionHypothesis =>
      exact importFree_append.mpr ⟨spelled.importFree, inductionHypothesis⟩
  | _ =>
      simp_all [importFree_append, importFree_cons, importFree_nil,
        BinaryOp.token_ne_kwImport, LiteralType.token_ne_kwImport]

theorem PathSpelled.importFree {path : String} {tokens : List Token}
    (spelled : PathSpelled path tokens) : ImportFree tokens := by
  induction spelled with
  | file isName => simp [importFree_cons, importFree_nil, isName]
  | directory isName isDot rest inductionHypothesis =>
      simp [importFree_cons, isName, isDot, inductionHypothesis]

/-- The length of a path is read off its tokens, up to the semicolon. -/
theorem PathSpelled.pathLength_eq {path : String} {tokens : List Token}
    (spelled : PathSpelled path tokens) {semicolon : Token}
    (isSemicolon : semicolon.type = .semicolon) (following : List Token) :
    pathLength (tokens ++ semicolon :: following) = path.length := by
  have last : pathLength (semicolon :: following) = 0 := by
    simp [pathLength, isSemicolon]
  induction spelled with
  | file isName => simp [pathLength, isName, isSemicolon]
  | directory isName isDot rest inductionHypothesis =>
      have slash : "/".length = 1 := rfl
      simp only [List.cons_append, pathLength, isName, isDot, inductionHypothesis,
        String.length_append, slash]
      simp
      omega

theorem PathsFit.append {tokens following : List Token} (free : ImportFree tokens)
    (fit : PathsFit following) : PathsFit (tokens ++ following) := by
  induction tokens with
  | nil => exact fit
  | cons token tokens inductionHypothesis =>
      rcases importFree_cons.mp free with ⟨notImport, free⟩
      exact ⟨fun isImport => absurd isImport notImport, inductionHypothesis free⟩

theorem TopLevel.Spelled.pathsFit {item : TopLevel} {tokens following : List Token}
    (spelled : item.Spelled tokens) (itemFits : item.Fits) (fit : PathsFit following) :
    PathsFit (tokens ++ following) := by
  cases spelled with
  | statement starts spelled => exact .append spelled.importFree fit
  | importNode spelled =>
      cases spelled with
      | mk isImport path isSemicolon =>
          rw [List.append_assoc, List.cons_append, List.singleton_append]
          constructor
          · intro
            unfold PathFits
            rw [path.pathLength_eq isSemicolon, ← String.length_append]
            exact itemFits
          · apply PathsFit.append path.importFree
            exact ⟨by simp [isSemicolon], fit⟩

theorem Program.ImportsFit.of_add {program : Program} {item : TopLevel}
    (fit : (program.add item).ImportsFit) : program.ImportsFit ∧ item.Fits := by
  cases item with
  | statement stmt => exact ⟨fit, trivial⟩
  | importNode node =>
      rw [Program.ImportsFit, Program.add, List.forall_mem_append] at fit
      exact ⟨fit.1, fit.2 node (List.mem_singleton_self node)⟩

/-- A program whose imports fit is spelled by tokens whose import paths fit. -/
theorem Program.Spelled.pathsFit {program : Program} {tokens following : List Token}
    (spelled : program.Spelled tokens) (importsFit : program.ImportsFit)
    (fit : PathsFit following) : PathsFit (tokens ++ following) := by
  induction spelled generalizing following with
  | empty => exact fit
  | add _ itemSpelled inductionHypothesis =>
      rcases importsFit.of_add with ⟨programFits, itemFits⟩
      rw [List.append_assoc]
      exact inductionHypothesis programFits (itemSpelled.pathsFit itemFits fit)

/-! ## Source texts -/

theorem ended_tokenize {input : List Char} {filename : String}
    (defined : ∀ token ∈ (tokenize input filename).tokens, token.type ≠ .undefined) :
    Ended (tokenize input filename).tokens := by
  rcases tokenizeLoop_lexed filename input.length { rest := input } with
    ⟨body, last, split, isEnd, -, lexed⟩
  refine ⟨body, last, split, isEnd, fun token isToken => ⟨(lexed token isToken).2, ?_⟩⟩
  apply defined
  unfold tokenize
  rw [split]
  exact List.mem_append_left _ isToken

/-- The parser returns on the tokens of every source text that the lexer can read,
and where it logs no error, the program is spelled by all tokens up to the end of
file exactly when every import path fits its buffer. -/
theorem parse_covers_iff {input : List Char} {filename : String}
    (defined : ∀ token ∈ (tokenize input filename).tokens, token.type ≠ .undefined) :
    ∃ parsed, parse (tokenize input filename).tokens filename = some parsed ∧
      (Log.hadErrors parsed.log = false →
        (parsed.program.Spelled (tokenize input filename).tokens.dropLast ↔
          PathsFit (tokenize input filename).tokens)) := by
  rcases parse_reads filename (ended_tokenize defined) with
    ⟨parsed, returned, importsFit, spelled⟩
  refine ⟨parsed, returned, fun clean => ⟨fun isSpelled => ?_, spelled clean⟩⟩
  rcases tokenizeLoop_lexed filename input.length { rest := input } with
    ⟨body, last, split, isEnd, -⟩
  have whole : (tokenize input filename).tokens = body ++ [last] := split
  rw [whole] at isSpelled ⊢
  rw [List.dropLast_concat] at isSpelled
  exact isSpelled.pathsFit importsFit ⟨by simp [isEnd], trivial⟩

theorem parse_covers_iff_import :
    (∀ token ∈ (tokenize "import a.b;".toList "main.slfr").tokens,
      token.type ≠ .undefined) ∧
    ∃ parsed, parse (tokenize "import a.b;".toList "main.slfr").tokens "main.slfr" =
        some parsed ∧
      (Log.hadErrors parsed.log = false →
        (parsed.program.Spelled (tokenize "import a.b;".toList "main.slfr").tokens.dropLast ↔
          PathsFit (tokenize "import a.b;".toList "main.slfr").tokens)) := by
  have defined : ∀ token ∈ (tokenize "import a.b;".toList "main.slfr").tokens,
      token.type ≠ .undefined := by decide
  exact ⟨defined, parse_covers_iff defined⟩

/-! ### An import that is dropped -/

/-- The longest name that a token holds. -/
def longName : List Char :=
  List.replicate 254 'a'

/-- The `import` of a path of 509 characters, which leaves no room for the
extension. -/
def longImport : List Char :=
  "import ".toList ++ longName ++ '.' :: longName ++ [';']

/-- The tokens of an import of a path with two equal parts. -/
def longImportTokens (name : String) : List Token :=
  [{ type := .kwImport, value := "import", span := ⟨1, 1, 6⟩ },
    { type := .identifier, value := name, span := ⟨1, 8, 254⟩ },
    { type := .dot, value := ".", span := ⟨1, 262, 1⟩ },
    { type := .identifier, value := name, span := ⟨1, 263, 254⟩ },
    { type := .semicolon, value := ";", span := ⟨1, 517, 1⟩ },
    { type := .eof, value := "", span := ⟨1, 518, 0⟩ }]

set_option maxRecDepth 4000 in
theorem tokenize_longImport :
    (tokenize longImport "main.slfr").tokens =
      longImportTokens (String.ofList longName) := by
  decide

section LongImport

variable {name : String} (length : name.length = 254)

/-- The parser in front of a token of the import. -/
def longImportAt (name : String) (current : Nat) : Parser :=
  { tokens := longImportTokens name, current := current, filename := "main.slfr" }

theorem type_longImportAt (name : String) :
    (longImportAt name 0).peek.type = .kwImport ∧
      (longImportAt name 1).peek.type = .identifier ∧
      (longImportAt name 2).peek.type = .dot ∧
      (longImportAt name 3).peek.type = .identifier ∧
      (longImportAt name 4).peek.type = .semicolon ∧
      (longImportAt name 5).peek.type = .eof :=
  ⟨rfl, rfl, rfl, rfl, rfl, rfl⟩

include length

theorem parseImportLoop_longImport :
    Runs (parseImportLoop 111 "" true) (longImportAt name 1) fun result q =>
      result = some (name ++ "/" ++ name) ∧ q = longImportAt name 5 := by
  rcases type_longImportAt name with ⟨-, first, second, third, fourth, -⟩
  have short : ¬"".length + name.length ≥ importPathSize := by
    rw [length]
    decide
  have slash : ¬name.length + 1 ≥ importPathSize := by
    rw [length]
    decide
  have whole : ¬(name ++ "/").length + name.length ≥ importPathSize := by
    rw [String.length_append, length]
    decide
  unfold parseImportLoop
  apply Runs.peek
  rw [if_neg (by simp [first]), if_pos rfl, if_neg (by simp [first])]
  apply Runs.advance (by simp [first])
  change Runs (if "".length + name.length ≥ importPathSize then _ else
    parseImportLoop 110 ("" ++ name) false) (longImportAt name 2) _
  rw [if_neg short, String.empty_append]
  unfold parseImportLoop
  apply Runs.peek
  rw [if_neg (by simp [second]), if_neg (by simp), if_neg (by simp [second])]
  apply Runs.advance (by simp [second])
  rw [if_neg slash]
  change Runs _ (longImportAt name 3) _
  unfold parseImportLoop
  apply Runs.peek
  rw [if_neg (by simp [third]), if_pos rfl, if_neg (by simp [third])]
  apply Runs.advance (by simp [third])
  change Runs (if (name ++ "/").length + name.length ≥ importPathSize then _ else
    parseImportLoop 108 (name ++ "/" ++ name) false) (longImportAt name 4) _
  rw [if_neg whole]
  unfold parseImportLoop
  apply Runs.peek
  rw [if_pos fourth, if_neg (by simp)]
  apply Runs.advance (by simp [fourth])
  exact .pure ⟨rfl, rfl⟩

theorem parse_longImport :
    parse (longImportTokens name) "main.slfr" = some ⟨{}, []⟩ := by
  rcases type_longImportAt name with ⟨first, -, -, -, -, last⟩
  have tooLong : (name ++ "/" ++ name).length + ".slfr".length ≥ importPathSize := by
    rw [String.length_append, String.length_append, length]
    decide
  have run : Runs (parseLoop 112 {}) (longImportAt name 0)
      fun result q => result = {} ∧ q.log = [] := by
    unfold parseLoop
    apply Runs.peek
    rw [if_pos (by simp [first])]
    apply Runs.get
    have item : Runs (parseTopLevel 111) (longImportAt name 0)
        fun result q => result = none ∧ q = longImportAt name 5 := by
      unfold parseTopLevel
      apply Runs.peek
      rw [if_neg (by simp [first, TokenType.isFn, TokenType.isQual]),
        if_pos (by simp [first, TokenType.isImport])]
      have node : Runs (parseImport 111) (longImportAt name 0)
          fun result q => result = none ∧ q = longImportAt name 5 := by
        unfold parseImport
        apply Runs.peek
        apply Runs.bind
        refine ⟨true, longImportAt name 1, rfl, ?_⟩
        dsimp only
        rw [if_pos rfl]
        apply (parseImportLoop_longImport length).andThen
        rintro result q ⟨rfl, rfl⟩
        dsimp only
        rw [if_pos tooLong]
        exact .pure ⟨rfl, rfl⟩
      apply node.andThen
      rintro result q ⟨rfl, rfl⟩
      have atEnd : (longImportAt name 5).advanced = longImportAt name 5 :=
        if_neg (by simp [last])
      apply Runs.update
      rw [atEnd]
      exact .pure ⟨rfl, rfl⟩
    apply item.andThen
    rintro result q ⟨rfl, rfl⟩
    apply Runs.get
    dsimp only
    rw [if_neg (by simp [longImportAt])]
    unfold parseLoop
    apply Runs.peek
    rw [if_neg (by simp [last])]
    exact .pure ⟨rfl, rfl⟩
  rcases run with ⟨program, q, returned, rfl, log⟩
  unfold parse
  rw [if_neg (by simp [longImportTokens])]
  change Option.map _ (parseLoop 112 {} (longImportAt name 0)) = _
  rw [returned, Option.map_some, log]

theorem not_spelled_longImport :
    ¬Program.Spelled {} (longImportTokens name).dropLast := by
  intro spelled
  have fits := @Program.Spelled.pathsFit _ _ [] spelled (by simp [Program.ImportsFit]) trivial
  have short : PathFits _ := fits.1 rfl
  simp [PathFits, pathLength, length, importPathSize] at short
  revert short
  decide

end LongImport

/-- The import is read without an error, and it is not in the program. -/
theorem parse_covers_fails_longImport :
    (∀ token ∈ (tokenize longImport "main.slfr").tokens, token.type ≠ .undefined) ∧
    parse (tokenize longImport "main.slfr").tokens "main.slfr" = some ⟨{}, []⟩ ∧
      ¬Program.Spelled {} (tokenize longImport "main.slfr").tokens.dropLast := by
  have length : (String.ofList longName).length = 254 := by
    rw [String.length_ofList, longName, List.length_replicate]
  rw [tokenize_longImport]
  refine ⟨?_, parse_longImport length, not_spelled_longImport length⟩
  simp [longImportTokens]

end Sulfur
