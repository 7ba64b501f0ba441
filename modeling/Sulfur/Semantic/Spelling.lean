import Sulfur.Frontend.Lexeme
import Sulfur.Frontend.Partition
import Sulfur.Semantic.Settled

/-!
# Spellings

The token of an identifier keeps the first 254 characters of its lexeme.  Names that
differ later are the same name to the parser and to the tables of the analyser, and
nothing is reported.
-/

namespace Sulfur

/-- The identifiers of a text, each with the characters that it is read from. -/
def identifierLexemes (input : List Char) : List (Token × List Char) :=
  (lexemes input).filter (·.1.type = .identifier)

/-- An identifier keeps what its buffer holds. -/
theorem value_of_identifier {before text rest : List Char} {token : Token}
    (isRead : ReadsLexeme before text rest token) (isIdentifier : token.type = .identifier) :
    token.value = String.ofList (text.take (maxTokenValueSize - 1)) := by
  rcases isRead.longestMatch.word (Or.inl isIdentifier) with ⟨start, -⟩
  rw [isRead.token, tokenOf, if_neg (isIdentStart_not_isDigit start), if_pos start]

theorem value_of_identifierLexeme {input : List Char} (nulFree : '\x00' ∉ input)
    {entry : Token × List Char} (isIdentifier : entry ∈ identifierLexemes input) :
    entry.1.value = String.ofList (entry.2.take (maxTokenValueSize - 1)) := by
  rcases List.mem_filter.mp isIdentifier with ⟨isLexeme, type⟩
  rcases (tokens_tokenize nulFree "").2 entry isLexeme with ⟨before, rest, isRead⟩
  exact value_of_identifier isRead (of_decide_eq_true type)

/-- All identifiers of the text that carry the names are spelled alike. -/
def SameSpelling (input : List Char) (name other : String) : Prop :=
  ∀ first ∈ identifierLexemes input, ∀ second ∈ identifierLexemes input,
    first.1.value = name → second.1.value = other → first.2 = second.2

/-- The name stands in a program as a variable, which carries the number. -/
def Program.Occurs (program : Program) (use : String × Nat) : Prop :=
  (∃ binder ∈ program.binders, (binder.name, binder.id) = use) ∨
    ∃ part ∈ Stmt.withinAll program.statements,
      use ∈ part.assigned ∨ ∃ expr ∈ part.expressions, use ∈ expr.uses

/-- Variables with one number and names of one function are spelled alike. -/
structure SeparateSymbols (input : List Char) (analysis : ProgramAnalysis) : Prop where
  ofVariables : ∀ first second, analysis.program.Occurs first →
    analysis.program.Occurs second → first.2 = second.2 →
      SameSpelling input first.1 second.1
  ofFunctions : ∀ first second func, analysis.funcs.lookup first = some func →
    analysis.funcs.lookup second = some func → SameSpelling input first second

/-- An error is logged, or spellings are equal exactly when the values of the tokens are,
and no two spellings are bound to one symbol. -/
def NamesStayDistinct (input : List Char) (filename : String) : Prop :=
  Log.hadErrors (tokenize input filename).log ∨
    (∀ first ∈ identifierLexemes input, ∀ second ∈ identifierLexemes input,
      first.2 = second.2 ↔ first.1.value = second.1.value) ∧
    ∀ parsed options modules analysis,
      parse (tokenize input filename).tokens filename = some parsed →
        Analyzed parsed.program filename options modules analysis →
          SeparateSymbols input analysis

/-- Some lexeme is no token of the language. -/
def Misspelled (input : List Char) : Prop :=
  ∃ entry ∈ lexemes input, entry.1.type = .undefined

/-- Identifiers that share their first 254 characters share all of them. -/
def DifferEarly (input : List Char) : Prop :=
  ∀ first ∈ identifierLexemes input, ∀ second ∈ identifierLexemes input,
    first.2.take (maxTokenValueSize - 1) = second.2.take (maxTokenValueSize - 1) →
      first.2 = second.2

theorem hadErrors_tokenize_iff {input : List Char} (nulFree : '\x00' ∉ input)
    (filename : String) :
    Log.hadErrors (tokenize input filename).log ↔ Misspelled input := by
  have logged := hadErrors_tokenizeLoop filename input.length { rest := input }
  change Log.hadErrors (tokenize input filename).log =
    (tokenize input filename).tokens.any _ at logged
  rw [logged, (tokens_tokenize nulFree filename).1]
  simp [Misspelled]

/-- The tokens of identifiers tell apart what their first 254 characters do. -/
theorem differEarly_iff {input : List Char} (nulFree : '\x00' ∉ input) :
    DifferEarly input ↔
      ∀ first ∈ identifierLexemes input, ∀ second ∈ identifierLexemes input,
        first.2 = second.2 ↔ first.1.value = second.1.value := by
  have values (first second : Token × List Char) (isFirst : first ∈ identifierLexemes input)
      (isSecond : second ∈ identifierLexemes input) : first.1.value = second.1.value ↔
        first.2.take (maxTokenValueSize - 1) = second.2.take (maxTokenValueSize - 1) := by
    rw [value_of_identifierLexeme nulFree isFirst, value_of_identifierLexeme nulFree isSecond,
      String.ofList_inj]
  constructor
  · intro early first isFirst second isSecond
    rw [values first second isFirst isSecond]
    constructor
    · intro same
      rw [same]
    · exact early first isFirst second isSecond
  · intro distinct first isFirst second isSecond same
    rw [distinct first isFirst second isSecond]
    exact (values first second isFirst isSecond).mpr same

/-! ## Symbols -/

/-- The uses of an expression are its identifiers. -/
theorem Expr.identifier_of_uses {use : String × Nat} {expr : Expr} (isUse : use ∈ expr.uses) :
    ∃ base depth symbol, identifier base use.1 depth use.2 symbol ∈ expr.nodes := by
  induction expr using Expr.induction with
  | binary base op left right leftHypothesis rightHypothesis =>
      rcases List.mem_append.mp isUse with inLeft | inRight
      · rcases leftHypothesis inLeft with ⟨base, depth, symbol, isNode⟩
        exact ⟨base, depth, symbol, List.mem_cons_of_mem _ (List.mem_append_left _ isNode)⟩
      · rcases rightHypothesis inRight with ⟨base, depth, symbol, isNode⟩
        exact ⟨base, depth, symbol, List.mem_cons_of_mem _ (List.mem_append_right _ isNode)⟩
  | unary base op operand operandHypothesis =>
      rcases operandHypothesis isUse with ⟨base, depth, symbol, isNode⟩
      exact ⟨base, depth, symbol, List.mem_cons_of_mem _ isNode⟩
  | cast base target operand operandHypothesis =>
      rcases operandHypothesis isUse with ⟨base, depth, symbol, isNode⟩
      exact ⟨base, depth, symbol, List.mem_cons_of_mem _ isNode⟩
  | literal base tokenType value => cases isUse
  | identifier base name depth id symbol =>
      rw [List.mem_singleton.mp isUse]
      exact ⟨base, depth, symbol, List.mem_cons_self⟩
  | funcCall base callee linkName arguments argumentsHypothesis =>
      rcases (mem_usesAll arguments).mp isUse with ⟨argument, isArgument, inArgument⟩
      rcases argumentsHypothesis argument isArgument inArgument with
        ⟨base, depth, symbol, isNode⟩
      exact ⟨base, depth, symbol, List.mem_cons_of_mem _
        ((mem_nodesAll arguments).mpr ⟨argument, isArgument, isNode⟩)⟩

variable {program : Program} {filename : String} {options : CompilerOptions}
  {modules : List Module} {analysis : ProgramAnalysis}

/-- The names of an analysed program are those of its declarations. -/
theorem Analyzed.declared_of_occurs
    (isAnalyzed : Analyzed program filename options modules analysis)
    {use : String × Nat} (occurs : analysis.program.Occurs use) :
    Declared analysis.program.binders use := by
  rcases occurs with ⟨binder, isBinder, rfl⟩ | ⟨part, inProgram, isUse⟩
  · exact ⟨binder, isBinder, rfl, rfl⟩
  · have settled := (isAnalyzed.checked part inProgram).settled
    rcases isUse with isAssigned | ⟨expr, isPart, inExpr⟩
    · exact settled.2 use isAssigned
    · rcases Expr.identifier_of_uses inExpr with ⟨base, depth, symbol, isNode⟩
      exact (settled.1 expr isPart _ isNode).2

/-- One symbol has one name. -/
theorem Analyzed.name_eq_of_id_eq
    (isAnalyzed : Analyzed program filename options modules analysis)
    {first second : String × Nat} (isFirst : analysis.program.Occurs first)
    (isSecond : analysis.program.Occurs second) (sameId : first.2 = second.2) :
    first.1 = second.1 := by
  rcases isAnalyzed.declared_of_occurs isFirst with ⟨binder, isBinder, name, id⟩
  rcases isAnalyzed.declared_of_occurs isSecond with ⟨other, isOther, otherName, otherId⟩
  have sameBinder : binder = other :=
    List.inj_on_of_nodup_map isAnalyzed.nodup_ids isBinder isOther
      (by rw [id, otherId, sameId])
  rw [← name, ← otherName, sameBinder]

theorem separateSymbols_of_differEarly {input : List Char} (nulFree : '\x00' ∉ input)
    (early : DifferEarly input)
    (isAnalyzed : Analyzed program filename options modules analysis) :
    SeparateSymbols input analysis := by
  have sameSpelling (name : String) : SameSpelling input name name := by
    intro first isFirst second isSecond firstName secondName
    apply ((differEarly_iff nulFree).mp early first isFirst second isSecond).mpr
    rw [firstName, secondName]
  constructor
  · intro first second isFirst isSecond sameId
    rw [isAnalyzed.name_eq_of_id_eq isFirst isSecond sameId]
    exact sameSpelling _
  · intro first second func found foundSecond
    rw [← FuncSymbolTable.name_of_lookup found, ← FuncSymbolTable.name_of_lookup foundSecond]
    exact sameSpelling _

/-- Distinct names stay distinct exactly when they differ in their first 254 characters,
or when the source is not read without an error. -/
theorem namesStayDistinct_iff {input : List Char} (nulFree : '\x00' ∉ input)
    (filename : String) :
    NamesStayDistinct input filename ↔ Misspelled input ∨ DifferEarly input := by
  unfold NamesStayDistinct
  rw [hadErrors_tokenize_iff nulFree]
  constructor
  · rintro (misspelled | ⟨distinct, -⟩)
    · exact Or.inl misspelled
    · exact Or.inr ((differEarly_iff nulFree).mpr distinct)
  · rintro (misspelled | early)
    · exact Or.inl misspelled
    · apply Or.inr
      constructor
      · exact (differEarly_iff nulFree).mp early
      · intro parsed options modules analysis _ isAnalyzed
        exact separateSymbols_of_differEarly nulFree early isAnalyzed

theorem namesStayDistinct_main :
    NamesStayDistinct "fn main() i32 { mut i32 a = 1; a = 2; return a; }".toList "main.slfr" := by
  rw [namesStayDistinct_iff (by decide)]
  apply Or.inr
  unfold DifferEarly
  decide

/-! ## Long names -/

/-- A name whose last character is the 255th. -/
def nameEndingIn (last : Char) : List Char :=
  List.replicate 254 'x' ++ [last]

/-- A program that declares one name and assigns to another one. -/
def collidingSource : List Char :=
  "fn main() i32 \x7b mut i32 ".toList ++ nameEndingIn 'a' ++ " = 1; ".toList ++ nameEndingIn 'b' ++
    " = 2; return 0; \x7d".toList

/-- The tokens of the program, when both names are read as the given one. -/
def collidingTokens (name : String) : List Token := [
  { type := .kwFn, value := "fn", span := ⟨1, 1, 2⟩ },
  { type := .identifier, value := "main", span := ⟨1, 4, 4⟩ },
  { type := .lparen, value := "(", span := ⟨1, 8, 1⟩ },
  { type := .rparen, value := ")", span := ⟨1, 9, 1⟩ },
  { type := .kwI32, value := "i32", span := ⟨1, 11, 3⟩ },
  { type := .lbrace, value := "\x7b", span := ⟨1, 15, 1⟩ },
  { type := .kwMut, value := "mut", span := ⟨1, 17, 3⟩ },
  { type := .kwI32, value := "i32", span := ⟨1, 21, 3⟩ },
  { type := .identifier, value := name, span := ⟨1, 25, 254⟩ },
  { type := .equal, value := "=", span := ⟨1, 281, 1⟩ },
  { type := .integer, value := "1", span := ⟨1, 283, 1⟩ },
  { type := .semicolon, value := ";", span := ⟨1, 284, 1⟩ },
  { type := .identifier, value := name, span := ⟨1, 286, 254⟩ },
  { type := .equal, value := "=", span := ⟨1, 542, 1⟩ },
  { type := .integer, value := "2", span := ⟨1, 544, 1⟩ },
  { type := .semicolon, value := ";", span := ⟨1, 545, 1⟩ },
  { type := .kwReturn, value := "return", span := ⟨1, 547, 6⟩ },
  { type := .integer, value := "0", span := ⟨1, 554, 1⟩ },
  { type := .semicolon, value := ";", span := ⟨1, 555, 1⟩ },
  { type := .rbrace, value := "\x7d", span := ⟨1, 557, 1⟩ },
  { type := .eof, value := "", span := ⟨1, 558, 0⟩ }]

/-- The parser and the analyser log no error about the tokens. -/
def AcceptsTokens (tokens : List Token) (filename : String) : Bool :=
  (parse tokens filename).any fun parsed => !Log.hadErrors parsed.log &&
    (analyze parsed.program filename {} []).any fun analysis => !Log.hadErrors analysis.log

set_option maxRecDepth 100000 in
theorem differEarly_collidingSource : ¬DifferEarly collidingSource := by
  unfold DifferEarly
  decide

set_option maxRecDepth 100000 in
theorem tokenize_collidingSource :
    tokenize collidingSource "main.slfr" =
      ⟨collidingTokens (String.ofList (List.replicate 254 'x')), []⟩ := by
  decide

set_option maxRecDepth 100000 in
theorem acceptsTokens_colliding :
    AcceptsTokens (collidingTokens (String.ofList (List.replicate 254 'x'))) "main.slfr" := by
  decide

/-- Two names of 255 characters that differ in the last one are one variable, and the
front end reports nothing. -/
theorem longNames_collide :
    ¬NamesStayDistinct collidingSource "main.slfr" ∧
      (tokenize collidingSource "main.slfr").log = [] ∧
      AcceptsTokens (tokenize collidingSource "main.slfr").tokens "main.slfr" := by
  rw [NamesStayDistinct, tokenize_collidingSource]
  constructor
  · rintro (reported | ⟨distinct, -⟩)
    · cases reported
    · exact differEarly_collidingSource ((differEarly_iff (by decide +kernel)).mpr distinct)
  · exact ⟨rfl, acceptsTokens_colliding⟩

end Sulfur
