import Sulfur.Frontend.Numeral
import Mathlib.Data.List.TakeWhile

/-!
# Lexemes of the input

The lexer cuts its input into white space and lexemes.  A lexeme is a maximal run of
identifier characters, the longest symbol, or a maximal run of characters that belong
to neither, and its token is determined by its characters.
-/

namespace Sulfur

/-! ## Classes of characters -/

/-- Some symbol is the character. -/
def isSymbolChar (c : Char) : Bool :=
  kSymbols.any fun spelling => spelling.2.toList = [c]

/-- The characters that the language does not know. -/
def isStray (c : Char) : Bool :=
  c ≠ '\x00' && !isSpace c && !isIdentChar c && !isSymbolChar c

/-- The character may stand in the body of a numeral. -/
def isDigitOf (base : Nat) (c : Char) : Bool :=
  c = '_' || (digitValue c base).isSome

theorem isIdentChar_ne_nul {c : Char} (isChar : isIdentChar c) : c ≠ '\x00' := by
  rintro rfl
  cases isChar

theorem isIdentChar_not_isSpace {c : Char} (isChar : isIdentChar c) : isSpace c = false := by
  rw [Bool.eq_false_iff]
  intro isSpace
  simp only [Sulfur.isSpace, Bool.or_eq_true, decide_eq_true_eq] at isSpace
  rcases isSpace with ((((rfl | rfl) | rfl) | rfl) | rfl) | rfl <;> cases isChar

/-- The digits of every base and the underscore are identifier characters. -/
theorem isDigitOf_isIdentChar {base : Nat} {c : Char} (isDigit : isDigitOf base c) :
    isIdentChar c := by
  simp only [isDigitOf, Bool.or_eq_true, decide_eq_true_eq] at isDigit
  rcases isDigit with rfl | isDigit
  · rfl
  · simp only [digitValue, Option.isSome_filter] at isDigit
    simp only [isIdentChar, isIdentStart, Sulfur.isDigit, Bool.or_eq_true, Bool.and_eq_true,
      decide_eq_true_eq]
    split at isDigit
    · rename_i digit
      simp only [Bool.and_eq_true, decide_eq_true_eq] at digit
      exact Or.inr digit
    · split at isDigit
      · rename_i letter
        simp only [Bool.and_eq_true, decide_eq_true_eq] at letter
        exact Or.inl (Or.inl (Or.inl ⟨letter.1, Char.le_trans letter.2 (by decide : 'f' ≤ 'z')⟩))
      · split at isDigit
        · rename_i letter
          simp only [Bool.and_eq_true, decide_eq_true_eq] at letter
          exact Or.inl (Or.inl (Or.inr ⟨letter.1, Char.le_trans letter.2 (by decide : 'F' ≤ 'Z')⟩))
        · simp at isDigit

/-! ## Symbols -/

/-- A longer symbol comes before a shorter one in the table. -/
theorem kSymbols_sorted :
    kSymbols.Pairwise fun first second => second.2.length ≤ first.2.length := by
  decide

/-- Every character of a symbol is a symbol. -/
theorem isSymbolChar_of_mem : ∀ spelling ∈ kSymbols, ∀ c ∈ spelling.2.toList,
    isSymbolChar c ∧ isIdentChar c = false ∧ isSpace c = false ∧ c ≠ '\x00' := by
  have all : kSymbols.all fun spelling => spelling.2.toList.all fun c =>
      isSymbolChar c && !isIdentChar c && !isSpace c && c != '\x00' := by
    decide
  simpa [and_assoc] using all

theorem length_pos_of_mem : ∀ spelling ∈ kSymbols, 0 < spelling.2.length := by
  decide

/-- The lexer finds the longest symbol that the text starts with. -/
theorem findSymbol_longest {text : List Char} {symbol : TokenType × String}
    (found : findSymbol text = some symbol) :
    symbol ∈ kSymbols ∧ symbol.2.toList <+: text ∧
      ∀ other ∈ kSymbols, other.2.toList <+: text → other.2.length ≤ symbol.2.length := by
  rcases List.find?_eq_some_iff_append.mp found with ⟨isPrefix, before, after, split, none⟩
  constructor
  · exact List.mem_of_find?_eq_some found
  · apply And.intro (List.isPrefixOf_iff_prefix.mp isPrefix)
    intro other isSymbol isPrefix
    rw [split] at isSymbol
    rcases List.mem_append.mp isSymbol with earlier | later
    · have notPrefix := none other earlier
      rw [List.isPrefixOf_iff_prefix.mpr isPrefix] at notPrefix
      cases notPrefix
    · rcases List.mem_cons.mp later with rfl | later
      · exact le_rfl
      · have sorted := kSymbols_sorted
        rw [split, List.pairwise_append, List.pairwise_cons] at sorted
        exact sorted.2.1.1 other later

/-- A symbol starts where a character of a symbol stands. -/
theorem isSome_findSymbol (c : Char) (rest : List Char) :
    (findSymbol (c :: rest)).isSome = isSymbolChar c := by
  rw [Bool.eq_iff_iff, findSymbol, List.find?_isSome, isSymbolChar, List.any_eq_true]
  constructor
  · rintro ⟨spelling, isSymbol, isPrefix⟩
    have chars := isSymbolChar_of_mem spelling isSymbol
    cases text : spelling.2.toList with
    | nil =>
        have positive := length_pos_of_mem spelling isSymbol
        rw [← String.length_toList, text] at positive
        cases positive
    | cons first others =>
        rw [text] at isPrefix chars
        rw [List.isPrefixOf_iff_prefix, List.cons_prefix_cons] at isPrefix
        have isChar := (chars first List.mem_cons_self).1
        rw [isPrefix.1, isSymbolChar, List.any_eq_true] at isChar
        exact isChar
  · rintro ⟨spelling, isSymbol, single⟩
    refine ⟨spelling, isSymbol, ?_⟩
    rw [of_decide_eq_true single, List.isPrefixOf_iff_prefix]
    exact ⟨rest, rfl⟩

/-! ## Lexemes -/

/-- The lexeme at the start of the text, which is no white space. -/
def lexemeAt (text : List Char) : List Char :=
  if isIdentChar (text.headD '\x00') then
    text.takeWhile isIdentChar
  else
    match findSymbol text with
    | some symbol => symbol.2.toList
    | none => text.takeWhile isStray

/-- The digits of a numeral behind the prefix that names its base. -/
def numeralBody (text : List Char) : List Char :=
  if writtenBase text = 10 then text else text.drop 2

/-- A run of identifier characters is a numeral. -/
def isNumeral (text : List Char) : Bool :=
  (numeralBody text).all (isDigitOf (writtenBase text)) &&
    (numeralBody text).any fun c => (digitValue c (writtenBase text)).isSome

/-- The token of an undefined lexeme. -/
def undefinedToken (span : Span) (text : List Char) : Token :=
  let kept := text.take (maxTokenValueSize - 1)
  { type := .undefined
    value := String.ofList kept
    span := { span with len := kept.length } }

/-- The token of a lexeme at a position. -/
def tokenOf (span : Span) (text : List Char) : Token :=
  if isDigit (text.headD '\x00') then
    if isNumeral text then
      { type := .integer
        value := toString (writtenValue text % 2 ^ 64)
        span := { span with len := min text.length 255 } }
    else
      undefinedToken span text
  else if isIdentStart (text.headD '\x00') then
    let kept := text.take (maxTokenValueSize - 1)
    { type := resolveKeyword (String.ofList kept)
      value := String.ofList kept
      span := { span with len := kept.length } }
  else
    match kSymbols.find? fun spelling => spelling.2.toList = text with
    | some symbol =>
        { type := symbol.1
          value := symbol.2
          span := { span with len := symbol.2.length } }
    | none => undefinedToken span text

/-- The characters of an undefined lexeme after its first one are a run of one
class. -/
theorem undefinedTail_eq (number : Bool) (text : List Char) :
    undefinedTail number text = text.takeWhile (if number then isIdentChar else isStray) := by
  induction text with
  | nil => rfl
  | cons c rest inductionHypothesis =>
      have continues : undefinedRunContinues (c :: rest) number =
          (if number then isIdentChar else isStray) c := by
        have findsSymbol : (findSymbol (c :: rest)).isNone = !isSymbolChar c := by
          rw [← isSome_findSymbol c rest, Option.not_isSome]
        unfold undefinedRunContinues
        rw [List.headD_cons, findsSymbol]
        cases number with
        | true =>
            by_cases isChar : isIdentChar c
            · simp [isChar, isIdentChar_ne_nul isChar, isIdentChar_not_isSpace isChar]
            · simp [isChar]
        | false =>
            rw [if_neg Bool.false_ne_true]
            unfold isStray
            by_cases ends : c = '\x00' ∨ isSpace c
            · rcases ends with rfl | space
              · rfl
              · simp [space]
            · push Not at ends
              simp [ends]
      rw [undefinedTail, List.takeWhile_cons, continues, inductionHypothesis]

/-- The digit loop reads the digits and underscores at the start. -/
theorem readDigits_eq (base : Nat) (text : List Char) (run : DigitRun) :
    (readDigits base text run).count =
        run.count + (text.takeWhile (isDigitOf base)).length ∧
      (readDigits base text run).hasDigit =
        (run.hasDigit ||
          (text.takeWhile (isDigitOf base)).any fun c => (digitValue c base).isSome) := by
  induction text generalizing run with
  | nil => simp [readDigits]
  | cons c rest inductionHypothesis =>
      unfold readDigits
      split
      · rename_i isNul
        have stops : isDigitOf base c = false := by
          rw [Bool.eq_false_iff]
          exact fun isDigit => isIdentChar_ne_nul (isDigitOf_isIdentChar isDigit) isNul
        simp [stops]
      · split
        · rename_i underscore
          have none : digitValue '_' base = none := rfl
          have goesOn : isDigitOf base '_' := rfl
          rw [underscore, (inductionHypothesis _).1, (inductionHypothesis _).2,
            List.takeWhile_cons, if_pos goesOn]
          constructor
          · rw [List.length_cons, Nat.add_assoc, Nat.add_comm 1]
          · simp [none]
        · rename_i notUnderscore
          split
          · rename_i none
            have stops : isDigitOf base c = false := by simp [isDigitOf, notUnderscore, none]
            simp [stops]
          · rename_i digit some
            have goesOn : isDigitOf base c := by simp [isDigitOf, some]
            rw [(inductionHypothesis _).1, (inductionHypothesis _).2, List.takeWhile_cons,
              if_pos goesOn]
            constructor
            · rw [List.length_cons, Nat.add_assoc, Nat.add_comm 1]
            · simp [some]

/-! ## The readers -/

namespace Lexer

@[simp]
theorem rest_advance (lx : Lexer) (count : Nat) :
    (lx.advance count).rest = lx.rest.drop count := rfl

@[simp]
theorem line_advance (lx : Lexer) (count : Nat) : (lx.advance count).line = lx.line := rfl

theorem advance_advance (lx : Lexer) (first second : Nat) :
    (lx.advance first).advance second = lx.advance (first + second) := by
  simp [advance, Nat.add_assoc]

end Lexer

/-- A run of a wider class lies in a narrower one exactly when the run of the narrower
one is not continued. -/
theorem all_takeWhile_iff {p q : Char → Bool} (implies : ∀ c, p c → q c)
    (ends : q '\x00' = false) (text : List Char) :
    ((text.takeWhile q).all p ↔
        q ((text.drop (text.takeWhile p).length).headD '\x00') = false) ∧
      ((text.takeWhile q).all p → text.takeWhile q = text.takeWhile p) := by
  induction text with
  | nil => simp [ends]
  | cons c rest inductionHypothesis =>
      by_cases narrow : p c
      · simpa [narrow, implies c narrow] using inductionHypothesis
      · by_cases wide : q c <;> simp [narrow, wide]

theorem numberBase_eq (lx : Lexer) : numberBase lx = writtenBase lx.rest := by
  unfold numberBase Lexer.next Lexer.current writtenBase
  cases lx.rest with
  | nil => rfl
  | cons a rest =>
      rw [List.headD_cons]
      by_cases zero : a = '0'
      · subst zero
        cases rest with
        | nil => rfl
        | cons b rest =>
            rw [if_pos rfl, if_neg (by decide : ('0' : Char) ≠ '\x00')]
            simp only [List.drop_succ_cons, List.drop_zero, List.headD_cons]
            by_cases lower : b = 'x'
            · simp [lower]
            · by_cases upper : b = 'X'
              · simp [upper]
              · by_cases lowerTwo : b = 'b'
                · simp [lowerTwo]
                · by_cases upperTwo : b = 'B'
                  · simp [upperTwo]
                  · simp [lower, upper, lowerTwo, upperTwo]
      · rw [if_neg zero]
        split <;> simp_all

/-- The base of a numeral is named by two identifier characters. -/
theorem writtenBase_cons_cons (a b : Char) (rest : List Char) :
    writtenBase (a :: b :: rest) = writtenBase [a, b] ∧
      (writtenBase [a, b] ≠ 10 → isIdentChar a ∧ isIdentChar b) := by
  constructor
  · unfold writtenBase
    split <;> simp_all
  · unfold writtenBase
    split
    · simp_all [isIdentChar, isIdentStart, isDigit]
    · simp_all [isIdentChar, isIdentStart, isDigit]
    · simp_all [isIdentChar, isIdentStart, isDigit]
    · simp_all [isIdentChar, isIdentStart, isDigit]
    · exact fun other => absurd rfl other

/-- The base of a numeral is named inside of its run. -/
theorem writtenBase_takeWhile (text : List Char) :
    writtenBase (text.takeWhile isIdentChar) = writtenBase text := by
  match text with
  | [] => rfl
  | [a] => by_cases isChar : isIdentChar a <;> simp [isChar, writtenBase]
  | a :: b :: rest =>
      rcases writtenBase_cons_cons a b rest with ⟨same, named⟩
      by_cases both : isIdentChar a ∧ isIdentChar b
      · rw [List.takeWhile_cons_of_pos both.1, List.takeWhile_cons_of_pos both.2, same,
          (writtenBase_cons_cons a b _).1]
      · have decimal : writtenBase [a, b] = 10 := by
          by_contra other
          exact both (named other)
        rw [same, decimal]
        by_cases first : isIdentChar a
        · have second : ¬isIdentChar b := fun second => both ⟨first, second⟩
          rw [List.takeWhile_cons_of_pos first, List.takeWhile_cons_of_neg second]
          simp [writtenBase]
        · rw [List.takeWhile_cons_of_neg first]
          rfl

/-- The body of a numeral in its run. -/
theorem numeralBody_takeWhile (text : List Char) :
    numeralBody (text.takeWhile isIdentChar) = (numeralBody text).takeWhile isIdentChar := by
  unfold numeralBody
  rw [writtenBase_takeWhile]
  split
  · rfl
  · rename_i other
    match text with
    | [] => rfl
    | [a] => simp [writtenBase] at other
    | a :: b :: rest =>
        rcases writtenBase_cons_cons a b rest with ⟨same, named⟩
        rw [same] at other
        rcases named other with ⟨first, second⟩
        rw [List.takeWhile_cons_of_pos first, List.takeWhile_cons_of_pos second]
        rfl

theorem takeWhile_append_drop (p : Char → Bool) (text : List Char) :
    text.takeWhile p ++ text.drop (text.takeWhile p).length = text := by
  induction text with
  | nil => rfl
  | cons c rest inductionHypothesis =>
      by_cases holds : p c <;> simp [holds, inductionHypothesis]

theorem headD_takeWhile (p : Char → Bool) {text : List Char} (starts : p (text.headD '\x00')) :
    (text.takeWhile p).headD '\x00' = text.headD '\x00' := by
  cases text with
  | nil => rfl
  | cons c rest =>
      rw [List.headD_cons] at starts
      rw [List.takeWhile_cons_of_pos starts]
      rfl

/-- The state from which `read_number` reads digits. -/
def numberStart (lx : Lexer) : Lexer :=
  if numberBase lx ≠ 10 then lx.advance 2 else lx

theorem rest_numberStart (lx : Lexer) : (numberStart lx).rest = numeralBody lx.rest := by
  unfold numberStart numeralBody
  rw [numberBase_eq]
  by_cases decimal : writtenBase lx.rest = 10 <;> simp [decimal]

/-- Behind the body of a numeral the lexer is behind its run. -/
theorem numberStart_advance (lx : Lexer) :
    (numberStart lx).advance (numeralBody (lx.rest.takeWhile isIdentChar)).length =
      lx.advance (lx.rest.takeWhile isIdentChar).length := by
  unfold numberStart numeralBody
  rw [numberBase_eq, writtenBase_takeWhile]
  by_cases decimal : writtenBase lx.rest = 10
  · simp [decimal]
  · rw [← numberBase_eq] at decimal
    rcases exists_prefix_of_numberBase decimal with ⟨a, b, rest, whole⟩
    rw [numberBase_eq, whole] at decimal
    rcases writtenBase_cons_cons a b rest with ⟨same, named⟩
    rw [same] at decimal
    rcases named decimal with ⟨first, second⟩
    rw [whole, same, if_pos decimal, if_neg decimal, List.takeWhile_cons_of_pos first,
      List.takeWhile_cons_of_pos second, Lexer.advance_advance]
    congr 1
    simp
    omega

/-- `read_number` reads a run of identifier characters if it is a numeral. -/
theorem readNumber_eq {lx : Lexer} (starts : isDigit lx.current) :
    if isNumeral (lx.rest.takeWhile isIdentChar) then
      readNumber lx = (tokenOf lx.spanHere (lx.rest.takeWhile isIdentChar),
        lx.advance (lx.rest.takeWhile isIdentChar).length)
    else
      (readNumber lx).1.type = .undefined := by
  have implies (c : Char) (isDigit : isDigitOf (writtenBase lx.rest) c) : isIdentChar c :=
    isDigitOf_isIdentChar isDigit
  rcases all_takeWhile_iff implies rfl (numeralBody lx.rest) with ⟨stops, same⟩
  rcases readDigits_eq (writtenBase lx.rest) (numeralBody lx.rest) ⟨0, false, 0⟩ with
    ⟨count, hasDigit⟩
  rw [Nat.zero_add] at count
  rw [Bool.false_or] at hasDigit
  have written (token : Token) (stop : Lexer) (read : readNumber lx = (token, stop)) :=
    readNumber_written read
  have behind := numberStart_advance lx
  rw [numeralBody_takeWhile] at behind
  unfold isNumeral
  rw [numeralBody_takeWhile, writtenBase_takeWhile]
  unfold readNumber at written ⊢
  dsimp only at written ⊢
  rw [show (if numberBase lx ≠ 10 then lx.advance 2 else lx) = numberStart lx from rfl,
    rest_numberStart, numberBase_eq] at written ⊢
  generalize readDigits (writtenBase lx.rest) (numeralBody lx.rest) ⟨0, false, 0⟩ = run at *
  rw [count, hasDigit] at written ⊢
  have current : ((numberStart lx).advance ((numeralBody lx.rest).takeWhile
      (isDigitOf (writtenBase lx.rest))).length).current =
        ((numeralBody lx.rest).drop ((numeralBody lx.rest).takeWhile
          (isDigitOf (writtenBase lx.rest))).length).headD '\x00' := by
    rw [← rest_numberStart]
    rfl
  rw [current] at written ⊢
  by_cases all : ((numeralBody lx.rest).takeWhile isIdentChar).all (isDigitOf (writtenBase lx.rest))
  · rw [same all] at behind ⊢
    rw [stops.mp all, behind] at written ⊢
    rw [← same all] at written ⊢
    rw [all, Bool.true_and]
    by_cases digits : ((numeralBody lx.rest).takeWhile isIdentChar).any fun c =>
        (digitValue c (writtenBase lx.rest)).isSome
    · rw [digits] at written ⊢
      simp only [Bool.not_true, Bool.or_false, Bool.false_eq_true, if_false, if_true,
        Prod.mk.injEq, and_true] at written ⊢
      rcases written _ _ ⟨rfl, rfl⟩ rfl with ⟨body, whole, value⟩
      have split := takeWhile_append_drop isIdentChar lx.rest
      have isBody : body = lx.rest.takeWhile isIdentChar :=
        List.append_cancel_right (whole.symm.trans split.symm)
      dsimp only at value
      rw [value, isBody]
      unfold Lexer.current at starts
      unfold tokenOf
      rw [headD_takeWhile, if_pos starts, if_pos]
      · rw [Lexer.rest_advance, List.length_drop]
        congr 2
        have shorter := (List.takeWhile_prefix (l := lx.rest) isIdentChar).length_le
        omega
      · unfold isNumeral
        rw [numeralBody_takeWhile, writtenBase_takeWhile, all, digits]
        rfl
      · unfold isIdentChar
        rw [starts, Bool.or_true]
    · simp [digits]
  · have goesOn := (Bool.not_eq_false _).mp (all ∘ stops.mpr)
    rw [goesOn]
    simp [all]

/-- `lexer_report_undefined` reads a run of one class. -/
theorem lexerReportUndefined_eq (filename : String) {lx : Lexer} {p : Char → Bool}
    (isClass : p = if isDigit lx.current then isIdentChar else isStray)
    (starts : p (lx.rest.headD '\x00')) :
    (lexerReportUndefined filename lx).1 = undefinedToken lx.spanHere (lx.rest.takeWhile p) ∧
      (lexerReportUndefined filename lx).2.1 = lx.advance (lx.rest.takeWhile p).length := by
  have run : lx.rest.take 1 ++ undefinedTail (isDigit lx.current) (lx.rest.drop 1) =
      lx.rest.takeWhile p := by
    rw [undefinedTail_eq, ← isClass]
    cases text : lx.rest with
    | nil => rfl
    | cons c rest =>
        rw [text, List.headD_cons] at starts
        rw [List.takeWhile_cons_of_pos starts]
        rfl
  unfold lexerReportUndefined undefinedToken
  dsimp only
  rw [run]
  exact ⟨rfl, rfl⟩

theorem resolveKeyword_ne_undefined (value : String) :
    resolveKeyword value ≠ .undefined := by
  unfold resolveKeyword
  split
  · rename_i spelling found
    have all : ∀ spelling ∈ kKeywords, spelling.1 ≠ .undefined := by decide
    exact all spelling (List.mem_of_find?_eq_some found)
  · exact nofun

/-- A symbol is found again by its text. -/
theorem find?_text_of_mem : ∀ symbol ∈ kSymbols,
    kSymbols.find? (fun spelling => spelling.2.toList = symbol.2.toList) = some symbol ∧
      symbol.1 ≠ .undefined := by
  decide

/-- The first character of a symbol belongs to no identifier. -/
theorem isSymbolChar_headD : ∀ symbol ∈ kSymbols, isSymbolChar (symbol.2.toList.headD '\x00') ∧
    isIdentChar (symbol.2.toList.headD '\x00') = false := by
  decide

/-- One lexeme is read at a time, and its characters determine its token. -/
theorem lexerEmit_eq (filename : String) {lx : Lexer} (notEnd : lx.current ≠ '\x00')
    (notSpace : isSpace lx.current = false) :
    (lexerEmit filename lx).1 = tokenOf lx.spanHere (lexemeAt lx.rest) ∧
      (lexerEmit filename lx).2.1 = lx.advance (lexemeAt lx.rest).length := by
  unfold Lexer.current at notEnd notSpace
  unfold lexerEmit
  dsimp only
  by_cases digit : isDigit lx.current
  · -- a numeral, or a malformed one that is read again
    have isChar : isIdentChar (lx.rest.headD '\x00') := by
      unfold Lexer.current at digit
      unfold isIdentChar
      rw [digit, Bool.or_true]
    have read := readNumber_eq digit
    rw [if_pos digit, lexemeAt, if_pos isChar]
    have head := headD_takeWhile isIdentChar isChar
    split at read
    · rename_i numeral
      rw [read]
      have type : (tokenOf lx.spanHere (lx.rest.takeWhile isIdentChar)).type = .integer := by
        unfold Lexer.current at digit
        rw [tokenOf, head, if_pos digit, if_pos numeral]
      rw [if_neg (by rw [type]; exact nofun)]
      exact ⟨rfl, rfl⟩
    · rename_i malformed
      rw [if_pos read, tokenOf, head]
      rcases lexerReportUndefined_eq filename (if_pos digit).symm isChar with ⟨token, stop⟩
      unfold Lexer.current at digit
      rw [if_pos digit, if_neg malformed]
      exact ⟨token, stop⟩
  · rw [if_neg digit]
    by_cases start : isIdentStart lx.current
    · have isChar : isIdentChar (lx.rest.headD '\x00') := by
        unfold Lexer.current at start
        unfold isIdentChar
        rw [start, Bool.true_or]
      have head := headD_takeWhile isIdentChar isChar
      have defined : (readIdentifier lx).1.type ≠ .undefined := resolveKeyword_ne_undefined _
      rw [if_pos start, lexemeAt, if_pos isChar, if_neg defined]
      unfold Lexer.current at digit start
      rw [tokenOf, head, if_neg digit, if_pos start]
      exact ⟨rfl, rfl⟩
    · rw [if_neg start]
      have notChar : ¬isIdentChar (lx.rest.headD '\x00') := by
        unfold Lexer.current at digit start
        unfold isIdentChar
        rw [Bool.or_eq_true]
        exact fun either => either.elim start digit
      rw [lexemeAt, if_neg notChar]
      unfold readSymbol
      cases found : findSymbol lx.rest with
      | some symbol =>
          rcases findSymbol_longest found with ⟨isSymbol, isPrefix, -⟩
          rcases find?_text_of_mem symbol isSymbol with ⟨again, defined⟩
          have notSymbolChar := (isSymbolChar_headD symbol isSymbol).2
          unfold isIdentChar at notSymbolChar
          rw [Bool.or_eq_false_iff] at notSymbolChar
          dsimp only
          rw [if_neg defined, tokenOf, if_neg (by rw [notSymbolChar.2]; exact Bool.false_ne_true),
            if_neg (by rw [notSymbolChar.1]; exact Bool.false_ne_true), again,
            String.length_toList]
          exact ⟨rfl, rfl⟩
      | none =>
          have stray : isStray (lx.rest.headD '\x00') := by
            cases text : lx.rest with
            | nil =>
                rw [text] at notEnd
                exact absurd rfl notEnd
            | cons c rest =>
                rw [text, List.headD_cons] at notEnd notSpace notChar
                have notSymbol := isSome_findSymbol c rest
                rw [← text, found] at notSymbol
                simp only [Option.isSome_none] at notSymbol
                rw [List.headD_cons]
                simp [isStray, notEnd, notSpace, notChar, ← notSymbol]
          have head := headD_takeWhile isStray stray
          have noSymbol : kSymbols.find? (fun spelling =>
              spelling.2.toList = lx.rest.takeWhile isStray) = none := by
            rw [List.find?_eq_none]
            intro spelling isSymbol same
            have isChar := (isSymbolChar_headD spelling isSymbol).1
            rw [of_decide_eq_true same, head] at isChar
            rw [isStray, isChar, Bool.not_true, Bool.and_false] at stray
            cases stray
          rcases lexerReportUndefined_eq filename (if_neg digit).symm stray with
            ⟨token, stop⟩
          unfold Lexer.current at digit start
          dsimp only
          rw [if_pos rfl, tokenOf, head, if_neg digit, if_neg start, noSymbol]
          exact ⟨token, stop⟩

/-- A lexeme is at the start of its text, it is not empty and has no white space. -/
theorem lexemeAt_spec {text : List Char} (notEnd : text.headD '\x00' ≠ '\x00')
    (notSpace : isSpace (text.headD '\x00') = false) :
    lexemeAt text <+: text ∧ lexemeAt text ≠ [] ∧
      ∀ c ∈ lexemeAt text, isSpace c = false ∧ c ≠ '\x00' := by
  cases text with
  | nil => exact absurd rfl notEnd
  | cons c rest =>
      rw [List.headD_cons] at notEnd notSpace
      unfold lexemeAt
      rw [List.headD_cons]
      by_cases isChar : isIdentChar c
      · rw [if_pos isChar]
        constructor
        · exact List.takeWhile_prefix _
        · constructor
          · rw [List.takeWhile_cons_of_pos isChar]
            exact List.cons_ne_nil _ _
          · intro other inRun
            have isChar := List.mem_takeWhile_imp inRun
            exact ⟨isIdentChar_not_isSpace isChar, isIdentChar_ne_nul isChar⟩
      · rw [if_neg isChar]
        split
        · rename_i symbol found
          rcases findSymbol_longest found with ⟨isSymbol, isPrefix, -⟩
          apply And.intro isPrefix
          constructor
          · intro empty
            have positive := length_pos_of_mem symbol isSymbol
            rw [← String.length_toList, empty] at positive
            cases positive
          · intro other inSymbol
            exact (isSymbolChar_of_mem symbol isSymbol other inSymbol).2.2
        · rename_i none
          have notSymbol := isSome_findSymbol c rest
          rw [none] at notSymbol
          have stray : isStray c := by
            simp only [Option.isSome_none] at notSymbol
            simp [isStray, notEnd, notSpace, isChar, ← notSymbol]
          constructor
          · exact List.takeWhile_prefix _
          · constructor
            · rw [List.takeWhile_cons_of_pos stray]
              exact List.cons_ne_nil _ _
            · intro other inRun
              have stray := List.mem_takeWhile_imp inRun
              simp only [isStray, ne_eq, Bool.and_eq_true, decide_eq_true_eq,
                Bool.not_eq_true'] at stray
              exact ⟨stray.1.1.2, of_decide_eq_true (by simp [stray.1.1.1])⟩

/-! ## Positions -/

/-- The line of the position behind a text. -/
def lineBehind (before : List Char) : Nat :=
  1 + before.count '\n'

/-- The column of the position behind a text. -/
def colBehind (before : List Char) : Nat :=
  1 + (before.reverse.takeWhile (· ≠ '\n')).length

/-- The position behind a text, in counters of 32 bits. -/
def spanBehind (before : List Char) : Span :=
  { line := lineBehind before % 2 ^ 32, col := colBehind before % 2 ^ 32 }

theorem lineBehind_append {before text : List Char} (oneLine : '\n' ∉ text) :
    lineBehind (before ++ text) = lineBehind before := by
  simp [lineBehind, List.count_eq_zero.mpr oneLine]

theorem colBehind_append {before text : List Char} (oneLine : '\n' ∉ text) :
    colBehind (before ++ text) = colBehind before + text.length := by
  unfold colBehind
  rw [List.reverse_append, List.takeWhile_append_of_pos]
  · simp
    omega
  · intro c inText
    rw [decide_eq_true_eq]
    rintro rfl
    exact oneLine (List.mem_reverse.mp inText)

theorem colBehind_line {text : List Char} (oneLine : '\n' ∉ text) :
    colBehind text = 1 + text.length := by
  rw [← List.nil_append text, colBehind_append oneLine]
  rfl

theorem lineBehind_newline (before : List Char) :
    lineBehind (before ++ ['\n']) = lineBehind before + 1 := by
  simp [lineBehind]
  omega

theorem colBehind_newline (before : List Char) : colBehind (before ++ ['\n']) = 1 := by
  simp [colBehind]

/-! ## Tokens -/

/-- The text behind `before` is cut into white space and lexemes, one for each of the
values that are read. -/
inductive Factors {α : Type} (reads : List Char → List Char → List Char → α → Prop) :
    List Char → List Char → List α → Prop
  | nil {before : List Char} : Factors reads before [] []
  | space {before rest : List Char} {c : Char} {values : List α} (space : isSpace c)
      (others : Factors reads (before ++ [c]) rest values) :
      Factors reads before (c :: rest) values
  | lexeme {before text rest : List Char} {value : α} {values : List α}
      (isRead : reads before text rest value)
      (others : Factors reads (before ++ text) rest values) :
      Factors reads before (text ++ rest) (value :: values)

/-- What the lexer reads behind a text. -/
structure ReadsLexeme (before text rest : List Char) (token : Token) : Prop where
  notEnd : (text ++ rest).headD '\x00' ≠ '\x00'
  notSpace : isSpace ((text ++ rest).headD '\x00') = false
  lexeme : lexemeAt (text ++ rest) = text
  token : token = tokenOf (spanBehind before) text

namespace Factors

variable {α β : Type} {reads : List Char → List Char → List Char → α → Prop}
  {before rest : List Char} {values : List α}

theorem mono {others : List Char → List Char → List Char → α → Prop}
    (weaker : ∀ before text rest value, reads before text rest value →
      others before text rest value) (factors : Factors reads before rest values) :
    Factors others before rest values := by
  induction factors with
  | nil => exact .nil
  | space space _ inductionHypothesis => exact .space space inductionHypothesis
  | lexeme isRead _ inductionHypothesis =>
      exact .lexeme (weaker _ _ _ _ isRead) inductionHypothesis

theorem forall_values {holds : α → Prop}
    (each : ∀ before text rest value, reads before text rest value → holds value)
    (factors : Factors reads before rest values) : ∀ value ∈ values, holds value := by
  induction factors with
  | nil => simp
  | space _ _ inductionHypothesis => exact inductionHypothesis
  | lexeme isRead _ inductionHypothesis =>
      exact List.forall_mem_cons.mpr ⟨each _ _ _ _ isRead, inductionHypothesis⟩

/-- Nothing is read from an empty text. -/
theorem eq_nil
    (nonempty : ∀ before text rest value, reads before text rest value → text ≠ [])
    (factors : Factors reads before [] values) : values = [] := by
  generalize empty : [] = rest at factors
  cases factors with
  | nil => rfl
  | space => cases empty
  | lexeme isRead =>
      exact absurd (List.append_eq_nil_iff.mp empty.symm).1 (nonempty _ _ _ _ isRead)

end Factors

theorem spanHere_advance {lx : Lexer} {before text : List Char} (oneLine : '\n' ∉ text)
    (position : lx.spanHere = spanBehind before) :
    (lx.advance text.length).spanHere = spanBehind (before ++ text) := by
  simp only [Lexer.spanHere, spanBehind, Span.mk.injEq, and_true] at position
  simp only [Lexer.spanHere, Lexer.advance, spanBehind, lineBehind_append oneLine,
    colBehind_append oneLine, Span.mk.injEq, and_true]
  constructor
  · exact position.1
  · rw [position.2, Nat.mod_add_mod]

/-- The loop of the lexer cuts the text, and ends with the end of file. -/
theorem tokenizeLoop_factors (filename : String) {fuel : Nat} {lx : Lexer}
    {before : List Char} (nulFree : '\x00' ∉ lx.rest) (enough : lx.rest.length ≤ fuel)
    (position : lx.spanHere = spanBehind before) :
    ∃ tokens, (tokenizeLoop filename fuel lx).tokens =
        tokens ++ [{ type := .eof, span := spanBehind (before ++ lx.rest) }] ∧
      Factors ReadsLexeme before lx.rest tokens := by
  induction fuel generalizing lx before with
  | zero =>
      have empty := List.eq_nil_of_length_eq_zero (Nat.le_zero.mp enough)
      refine ⟨[], ?_, by rw [empty]; exact .nil⟩
      rw [tokenizeLoop, position, empty, List.append_nil]
      rfl
  | succ fuel inductionHypothesis =>
      cases text : lx.rest with
      | nil =>
          have ends : lx.current = '\x00' := by rw [Lexer.current, text]; rfl
          refine ⟨[], ?_, .nil⟩
          rw [tokenizeLoop, if_pos ends, position, List.append_nil]
          rfl
      | cons c rest =>
          rw [text, List.mem_cons, not_or] at nulFree
          rw [text, List.length_cons, Nat.add_le_add_iff_right] at enough
          have current : lx.current = c := by rw [Lexer.current, text]; rfl
          have dropped : lx.rest.drop 1 = rest := by rw [text]; rfl
          rw [tokenizeLoop, current, if_neg (Ne.symm nulFree.1), dropped]
          by_cases newline : c = '\n'
          · rw [if_pos newline]
            have onward : ({ rest := rest, line := (lx.line + 1) % 2 ^ 32, col := 1 } :
                Lexer).spanHere = spanBehind (before ++ [c]) := by
              simp only [Lexer.spanHere, spanBehind, Span.mk.injEq, and_true] at position ⊢
              rw [newline, lineBehind_newline, colBehind_newline, position.1, Nat.mod_add_mod]
              exact ⟨rfl, rfl⟩
            rcases inductionHypothesis nulFree.2 enough onward with ⟨tokens, equal, factors⟩
            refine ⟨tokens, ?_, .space (by rw [newline]; rfl) factors⟩
            rw [equal, List.append_assoc]
            rfl
          · rw [if_neg newline]
            by_cases space : isSpace c
            · rw [if_pos space]
              have oneLine : '\n' ∉ [c] := by simpa using Ne.symm newline
              have onward := spanHere_advance oneLine position
              rw [List.length_singleton] at onward
              have remaining : (lx.advance 1).rest = rest := dropped
              rcases inductionHypothesis (by rw [remaining]; exact nulFree.2)
                (by rwa [remaining]) onward with ⟨tokens, equal, factors⟩
              rw [remaining] at equal factors
              refine ⟨tokens, ?_, .space space factors⟩
              rw [equal, List.append_assoc]
              rfl
            · rw [if_neg space]
              have notEnd : lx.rest.headD '\x00' ≠ '\x00' := by
                rw [text]
                exact Ne.symm nulFree.1
              have notSpace : isSpace (lx.rest.headD '\x00') = false := by
                rw [text]
                exact Bool.eq_false_iff.mpr space
              rcases lexemeAt_spec notEnd notSpace with ⟨⟨after, split⟩, nonempty, inside⟩
              rcases lexerEmit_eq filename notEnd notSpace with ⟨isToken, stop⟩
              have oneLine : '\n' ∉ lexemeAt lx.rest := fun newline =>
                absurd (inside _ newline).1 (by decide)
              have onward := spanHere_advance oneLine position
              rw [← stop] at onward
              have remaining : (lexerEmit filename lx).2.1.rest = after := by
                rw [stop, Lexer.rest_advance]
                nth_rewrite 2 [← split]
                exact List.drop_left
              have shorter : after.length ≤ fuel := by
                have lengths := congrArg List.length split
                have positive := List.length_pos_iff.mpr nonempty
                rw [text, List.length_append, List.length_cons] at lengths
                rw [text] at positive
                omega
              have stillFree : '\x00' ∉ after := by
                intro isNul
                have inRest : '\x00' ∈ lx.rest := by
                  rw [← split]
                  exact List.mem_append_right _ isNul
                rw [text, List.mem_cons] at inRest
                exact inRest.elim nulFree.1 nulFree.2
              rcases inductionHypothesis (by rwa [remaining]) (by rwa [remaining]) onward with
                ⟨tokens, equal, factors⟩
              rw [remaining] at equal factors
              have isRead :
                  ReadsLexeme before (lexemeAt lx.rest) after (lexerEmit filename lx).1 := by
                constructor
                · rw [split]
                  exact notEnd
                · rw [split]
                  exact notSpace
                · rw [split]
                · rw [isToken, position]
              refine ⟨(lexerEmit filename lx).1 :: tokens, ?_, ?_⟩
              · dsimp only
                rw [equal, List.append_assoc, split, text]
                rfl
              · rw [← text]
                nth_rewrite 1 [← split]
                exact .lexeme isRead factors

/-- The lexer cuts its whole input. -/
theorem tokenize_factors {input : List Char} (nulFree : '\x00' ∉ input) (filename : String) :
    ∃ tokens, (tokenize input filename).tokens =
        tokens ++ [{ type := .eof, span := spanBehind input }] ∧
      Factors ReadsLexeme [] input tokens := by
  have start : ({ rest := input } : Lexer).spanHere = spanBehind [] := rfl
  exact tokenizeLoop_factors filename nulFree le_rfl start

/-! ## The lexemes of a text -/

/-- The tokens behind a text, each with the characters that it is read from. -/
def lexemesLoop : Nat → List Char → List Char → List (Token × List Char)
  | 0, _, _ => []
  | _ + 1, _, [] => []
  | fuel + 1, before, c :: rest =>
      if isSpace c then
        lexemesLoop fuel (before ++ [c]) rest
      else
        let text := lexemeAt (c :: rest)
        (tokenOf (spanBehind before) text, text) ::
          lexemesLoop fuel (before ++ text) ((c :: rest).drop text.length)

/-- The tokens that are read, each with the characters it stands for. -/
def lexemes (input : List Char) : List (Token × List Char) :=
  lexemesLoop input.length [] input

/-- The factors of a text are its lexemes. -/
theorem Factors.eq_lexemes {fuel : Nat} {before rest : List Char} {tokens : List Token}
    (factors : Factors ReadsLexeme before rest tokens) (enough : rest.length ≤ fuel) :
    tokens = (lexemesLoop fuel before rest).map Prod.fst ∧
      ∀ entry ∈ lexemesLoop fuel before rest, ∃ before rest,
        ReadsLexeme before entry.2 rest entry.1 := by
  induction factors generalizing fuel with
  | nil => cases fuel <;> simp [lexemesLoop]
  | space space _ inductionHypothesis =>
      cases fuel with
      | zero => cases enough
      | succ fuel =>
          rw [lexemesLoop, if_pos space]
          exact inductionHypothesis (Nat.le_of_succ_le_succ enough)
  | @lexeme before text rest token tokens isRead _ inductionHypothesis =>
      rcases lexemeAt_spec isRead.notEnd isRead.notSpace with ⟨-, nonempty, -⟩
      rw [isRead.lexeme] at nonempty
      have positive := List.length_pos_iff.mpr nonempty
      rw [List.length_append] at enough
      cases fuel with
      | zero => omega
      | succ fuel =>
          rcases inductionHypothesis (by omega : rest.length ≤ fuel) with ⟨same, each⟩
          cases whole : text ++ rest with
          | nil => exact absurd (List.append_eq_nil_iff.mp whole).1 nonempty
          | cons c others =>
              have notSpace := isRead.notSpace
              rw [whole, List.headD_cons] at notSpace
              have loop : lexemesLoop (fuel + 1) before (c :: others) =
                  (token, text) :: lexemesLoop fuel (before ++ text) rest := by
                rw [lexemesLoop, if_neg (Bool.eq_false_iff.mp notSpace), ← whole]
                simp only [isRead.lexeme, List.drop_left, isRead.token]
              rw [loop, List.map_cons, ← same, List.forall_mem_cons]
              exact ⟨rfl, ⟨before, rest, isRead⟩, each⟩

/-- The tokens of a text are those of its lexemes. -/
theorem tokens_tokenize {input : List Char} (nulFree : '\x00' ∉ input) (filename : String) :
    (tokenize input filename).tokens =
        (lexemes input).map Prod.fst ++ [{ type := .eof, span := spanBehind input }] ∧
      ∀ entry ∈ lexemes input, ∃ before rest, ReadsLexeme before entry.2 rest entry.1 := by
  rcases tokenize_factors nulFree filename with ⟨tokens, equal, factors⟩
  rcases factors.eq_lexemes le_rfl with ⟨same, each⟩
  rw [equal, same]
  exact ⟨rfl, each⟩

/-- The lexer reports the undefined tokens and no others. -/
theorem hadErrors_lexerEmit (filename : String) (lx : Lexer) :
    Log.hadErrors (lexerEmit filename lx).2.2 =
      decide ((lexerEmit filename lx).1.type = .undefined) := by
  have reported (read : Token × Lexer) : Log.hadErrors (if read.1.type = .undefined then
        ((lexerReportUndefined filename lx).1, (lexerReportUndefined filename lx).2.1,
          [(lexerReportUndefined filename lx).2.2])
        else (read.1, read.2, [])).2.2 =
      decide ((if read.1.type = .undefined then
        ((lexerReportUndefined filename lx).1, (lexerReportUndefined filename lx).2.1,
          [(lexerReportUndefined filename lx).2.2])
        else (read.1, read.2, [])).1.type = .undefined) := by
    by_cases undefined : read.1.type = .undefined
    · simp only [if_pos undefined]
      rfl
    · simp [undefined, Log.hadErrors]
  exact reported _

/-- An error is logged exactly when a token is undefined. -/
theorem hadErrors_tokenizeLoop (filename : String) (fuel : Nat) (lx : Lexer) :
    Log.hadErrors (tokenizeLoop filename fuel lx).log =
      (tokenizeLoop filename fuel lx).tokens.any (·.type = .undefined) := by
  induction fuel generalizing lx with
  | zero => rfl
  | succ fuel inductionHypothesis =>
      unfold tokenizeLoop
      split
      · rfl
      · split
        · exact inductionHypothesis _
        · split
          · exact inductionHypothesis _
          · dsimp only
            rw [Log.hadErrors_append, inductionHypothesis, hadErrors_lexerEmit, List.any_cons]

/-! ## Longest match -/

/-- The character may stand in a lexeme of the run. -/
structure IsRun (p : Char → Bool) (text rest : List Char) : Prop where
  inside : ∀ c ∈ text, p c
  stops : ∀ c ∈ rest.head?, p c = false

/-- The token is read from the characters of the text by longest match, at its line and
column in counters of 32 bits. -/
structure LongestMatch (before text rest : List Char) (token : Token) : Prop where
  nonempty : text ≠ []
  noSpace : ∀ c ∈ text, isSpace c = false
  notEof : token.type ≠ .eof
  line : token.span.line = (1 + before.count '\n') % 2 ^ 32
  column : token.span.col = (1 + (before.reverse.takeWhile (· ≠ '\n')).length) % 2 ^ 32
  symbol : token.type ∈ kSymbols.map Prod.fst →
    (token.type, String.ofList text) ∈ kSymbols ∧
      ∀ spelling ∈ kSymbols, spelling.2.toList <+: text ++ rest →
        spelling.2.length ≤ text.length
  word : token.type = .identifier ∨ token.type ∈ kKeywords.map Prod.fst →
    isIdentStart (text.headD '\x00') ∧ IsRun isIdentChar text rest
  numeral : token.type = .integer →
    isDigit (text.headD '\x00') ∧
      IsRun (isDigitOf (writtenBase text)) (numeralBody text) rest ∧
      (∃ c ∈ numeralBody text, (digitValue c (writtenBase text)).isSome) ∧
      ∀ c ∈ rest.head?, isIdentChar c = false

theorem isRun_of_takeWhile {p : Char → Bool} {text rest : List Char}
    (run : (text ++ rest).takeWhile p = text) : IsRun p text rest := by
  constructor
  · intro c inText
    rw [← run] at inText
    exact List.mem_takeWhile_imp inText
  · induction text with
    | nil =>
        cases rest with
        | nil => simp
        | cons c rest =>
            by_cases holds : p c
            · simp [holds] at run
            · simpa using holds
    | cons c text inductionHypothesis =>
        by_cases holds : p c
        · rw [List.cons_append, List.takeWhile_cons_of_pos holds, List.cons.injEq] at run
          exact inductionHypothesis run.2
        · rw [List.cons_append, List.takeWhile_cons_of_neg holds] at run
          cases run

theorem tokenOf_position (span : Span) (text : List Char) :
    (tokenOf span text).span.line = span.line ∧ (tokenOf span text).span.col = span.col := by
  unfold tokenOf
  dsimp only
  split
  · split <;> exact ⟨rfl, rfl⟩
  · split
    · exact ⟨rfl, rfl⟩
    · split <;> exact ⟨rfl, rfl⟩

/-- The types of words. -/
theorem resolveKeyword_type (value : String) :
    resolveKeyword value ≠ .eof ∧ resolveKeyword value ≠ .integer ∧
      resolveKeyword value ∉ kSymbols.map Prod.fst := by
  unfold resolveKeyword
  split
  · rename_i spelling found
    have all : ∀ spelling ∈ kKeywords, spelling.1 ≠ .eof ∧ spelling.1 ≠ .integer ∧
        spelling.1 ∉ kSymbols.map Prod.fst := by
      decide
    exact all spelling (List.mem_of_find?_eq_some found)
  · decide

theorem type_of_mem_kSymbols : ∀ symbol ∈ kSymbols,
    symbol.1 ≠ .eof ∧ symbol.1 ≠ .integer ∧ symbol.1 ≠ .identifier ∧
      symbol.1 ∉ kKeywords.map Prod.fst := by
  decide

theorem LongestMatch.of_undefined {before text rest : List Char} {token : Token}
    (undefined : token.type = .undefined) (nonempty : text ≠ [])
    (noSpace : ∀ c ∈ text, isSpace c = false)
    (line : token.span.line = lineBehind before % 2 ^ 32)
    (column : token.span.col = colBehind before % 2 ^ 32) :
    LongestMatch before text rest token := by
  constructor
  · exact nonempty
  · exact noSpace
  · rw [undefined]
    exact nofun
  · exact line
  · exact column
  · rw [undefined]
    exact fun isSymbol => absurd isSymbol (by decide)
  · rw [undefined]
    exact fun isWord => absurd isWord (by decide)
  · rw [undefined]
    exact nofun

/-- What is read is the longest match. -/
theorem ReadsLexeme.longestMatch {before text rest : List Char} {token : Token}
    (isRead : ReadsLexeme before text rest token) : LongestMatch before text rest token := by
  rcases isRead with ⟨notEnd, notSpace, lexeme, rfl⟩
  rcases lexemeAt_spec notEnd notSpace with ⟨-, nonempty, inside⟩
  rw [lexeme] at nonempty inside
  rcases tokenOf_position (spanBehind before) text with ⟨line, column⟩
  have noSpace : ∀ c ∈ text, isSpace c = false := fun c inText => (inside c inText).1
  have head : (text ++ rest).headD '\x00' = text.headD '\x00' := by
    cases text with
    | nil => exact absurd rfl nonempty
    | cons c others => rfl
  unfold lexemeAt at lexeme
  rw [head] at lexeme
  by_cases digit : isDigit (text.headD '\x00')
  · have isChar : isIdentChar (text.headD '\x00') := by
      unfold isIdentChar
      rw [digit, Bool.or_true]
    rw [if_pos isChar] at lexeme
    have run := isRun_of_takeWhile lexeme
    by_cases numeral : isNumeral text
    · have type : (tokenOf (spanBehind before) text).type = .integer := by
        rw [tokenOf, if_pos digit, if_pos numeral]
      constructor
      · exact nonempty
      · exact noSpace
      · rw [type]
        exact nofun
      · exact line
      · exact column
      · rw [type]
        exact fun isSymbol => absurd isSymbol (by decide)
      · rw [type]
        exact fun isWord => absurd isWord (by decide)
      · intro _
        rw [isNumeral, Bool.and_eq_true, List.all_eq_true, List.any_eq_true] at numeral
        refine ⟨digit, ⟨numeral.1, ?_⟩, numeral.2, run.stops⟩
        intro c isNext
        rw [Bool.eq_false_iff]
        intro isDigit
        have notChar := run.stops c isNext
        rw [isDigitOf_isIdentChar isDigit] at notChar
        cases notChar
    · have undefined : (tokenOf (spanBehind before) text).type = .undefined := by
        rw [tokenOf, if_pos digit, if_neg numeral]
        rfl
      exact .of_undefined undefined nonempty noSpace line column
  · by_cases start : isIdentStart (text.headD '\x00')
    · have isChar : isIdentChar (text.headD '\x00') := by
        unfold isIdentChar
        rw [start, Bool.true_or]
      rw [if_pos isChar] at lexeme
      have type : (tokenOf (spanBehind before) text).type =
          resolveKeyword (String.ofList (text.take (maxTokenValueSize - 1))) := by
        rw [tokenOf, if_neg digit, if_pos start]
      rcases resolveKeyword_type (String.ofList (text.take (maxTokenValueSize - 1))) with
        ⟨notEof, notInteger, notSymbol⟩
      rw [← type] at notEof notInteger notSymbol
      constructor
      · exact nonempty
      · exact noSpace
      · exact notEof
      · exact line
      · exact column
      · exact fun isSymbol => absurd isSymbol notSymbol
      · exact fun _ => ⟨start, isRun_of_takeWhile lexeme⟩
      · exact fun integer => absurd integer notInteger
    · have notChar : ¬isIdentChar (text.headD '\x00') := by
        unfold isIdentChar
        rw [Bool.or_eq_true]
        exact fun either => either.elim start digit
      rw [if_neg notChar] at lexeme
      cases found : findSymbol (text ++ rest) with
      | some symbol =>
          rw [found] at lexeme
          dsimp only at lexeme
          rcases findSymbol_longest found with ⟨isSymbol, -, longest⟩
          rcases type_of_mem_kSymbols symbol isSymbol with
            ⟨notEof, notInteger, notIdentifier, notKeyword⟩
          have type : (tokenOf (spanBehind before) text).type = symbol.1 := by
            rw [tokenOf, if_neg digit, if_neg start, ← lexeme,
              (find?_text_of_mem symbol isSymbol).1]
          rw [← type] at notEof notInteger notIdentifier notKeyword
          constructor
          · exact nonempty
          · exact noSpace
          · exact notEof
          · exact line
          · exact column
          · rw [type, ← lexeme, String.ofList_toList, String.length_toList]
            rw [← lexeme] at longest
            exact fun _ => ⟨isSymbol, longest⟩
          · exact fun isWord => absurd isWord (by simp [notIdentifier, notKeyword])
          · exact fun integer => absurd integer notInteger
      | none =>
          rw [found] at lexeme
          dsimp only at lexeme
          have undefined : (tokenOf (spanBehind before) text).type = .undefined := by
            have noSymbol : kSymbols.find? (fun spelling => spelling.2.toList = text) = none := by
              rw [List.find?_eq_none]
              intro spelling isSymbol same
              have none := List.find?_eq_none.mp found spelling isSymbol
              rw [of_decide_eq_true same, List.isPrefixOf_iff_prefix] at none
              exact none (List.prefix_append _ _)
            rw [tokenOf, if_neg digit, if_neg start, noSymbol]
            rfl
          exact .of_undefined undefined nonempty noSpace line column

/-- The lexer cuts its input into white space and lexemes by longest match, one for each
of its tokens but the last one, which is the end of file. -/
theorem tokenize_longestMatch {input : List Char} (nulFree : '\x00' ∉ input)
    (filename : String) :
    ∃ tokens, (tokenize input filename).tokens =
        tokens ++ [{ type := .eof, span := spanBehind input }] ∧
      (∀ token ∈ tokens, token.type ≠ .eof) ∧ Factors LongestMatch [] input tokens := by
  rcases tokenize_factors nulFree filename with ⟨tokens, equal, factors⟩
  have matched := factors.mono fun _ _ _ _ isRead => isRead.longestMatch
  exact ⟨tokens, equal, matched.forall_values fun _ _ _ _ isRead => isRead.notEof, matched⟩

theorem tokenize_longestMatch_assignment :
    ∃ tokens, (tokenize "x <<= 0x_1F;".toList "main.slfr").tokens =
        tokens ++ [{ type := .eof, span := spanBehind "x <<= 0x_1F;".toList }] ∧
      (∀ token ∈ tokens, token.type ≠ .eof) ∧
        Factors LongestMatch [] "x <<= 0x_1F;".toList tokens :=
  tokenize_longestMatch (by decide) "main.slfr"

/-! ## Long lines -/

/-- A longest match at the line and the column of the text itself. -/
structure ExactMatch (before text rest : List Char) (token : Token) : Prop extends
    LongestMatch before text rest token where
  exactLine : token.span.line = lineBehind before
  exactColumn : token.span.col = colBehind before

/-- A name behind blanks. -/
def indentedName (blanks : Nat) : List Char :=
  List.replicate blanks ' ' ++ ['a']

/-- The name is the only lexeme. -/
theorem Factors.indentedName {reads : List Char → List Char → List Char → Token → Prop}
    (matched : ∀ before text rest token, reads before text rest token →
      LongestMatch before text rest token) {before : List Char} {blanks : Nat}
    {tokens : List Token} (factors : Factors reads before (indentedName blanks) tokens) :
    ∃ token, tokens = [token] ∧ reads (before ++ List.replicate blanks ' ') ['a'] [] token := by
  induction blanks generalizing before with
  | zero =>
      rw [Sulfur.indentedName, List.replicate_zero, List.nil_append] at factors
      generalize whole : ['a'] = rest at factors
      cases factors with
      | nil => cases whole
      | space space others =>
          cases whole
          cases space
      | @lexeme _ text after token tokens isRead others =>
          have nonempty := (matched _ _ _ _ isRead).nonempty
          cases text with
          | nil => exact absurd rfl nonempty
          | cons c text =>
              rw [List.cons_append, List.cons.injEq] at whole
              rcases List.append_eq_nil_iff.mp whole.2.symm with ⟨rfl, rfl⟩
              rw [← whole.1] at isRead
              rw [others.eq_nil fun _ _ _ _ isRead => (matched _ _ _ _ isRead).nonempty]
              rw [← whole.1]
              exact ⟨token, rfl, by simpa using isRead⟩
  | succ blanks inductionHypothesis =>
      rw [Sulfur.indentedName, List.replicate_succ, List.cons_append] at factors
      generalize whole : ' ' :: (List.replicate blanks ' ' ++ ['a']) = rest at factors
      cases factors with
      | nil => cases whole
      | @space _ _ c _ space others =>
          rw [List.cons.injEq] at whole
          rw [← whole.1, ← whole.2] at others
          rcases inductionHypothesis others with ⟨token, same, isRead⟩
          exact ⟨token, same, by simpa [List.replicate_succ] using isRead⟩
      | @lexeme _ text after token tokens isRead others =>
          have isMatch := matched _ _ _ _ isRead
          cases text with
          | nil => exact absurd rfl isMatch.nonempty
          | cons c text =>
              rw [List.cons_append, List.cons.injEq] at whole
              have notSpace := isMatch.noSpace c List.mem_cons_self
              rw [← whole.1] at notSpace
              cases notSpace

theorem nulFree_indentedName (blanks : Nat) : '\x00' ∉ indentedName blanks := by
  simp [indentedName]

theorem colBehind_replicate (blanks : Nat) :
    colBehind (List.replicate blanks ' ') = 1 + blanks := by
  have oneLine : '\n' ∉ List.replicate blanks ' ' := by simp
  rw [colBehind_line oneLine, List.length_replicate]

/-- A name that is at its column has a column below 2 ^ 32. -/
theorem colBehind_of_exact {blanks : Nat} {filename : String} {tokens : List Token}
    (equal : (tokenize (indentedName blanks) filename).tokens =
      tokens ++ [{ type := .eof, span := spanBehind (indentedName blanks) }])
    (factors : Factors ExactMatch [] (indentedName blanks) tokens) :
    (1 + blanks) % 2 ^ 32 = 1 + blanks := by
  rcases tokenize_longestMatch (nulFree_indentedName blanks) filename with
    ⟨others, same, -, matched⟩
  rcases factors.indentedName (fun _ _ _ _ isRead => isRead.toLongestMatch) with
    ⟨token, rfl, exactly⟩
  rcases matched.indentedName (fun _ _ _ _ isRead => isRead) with ⟨other, rfl, wrapped⟩
  rw [same, List.append_cancel_right_eq, List.cons.injEq] at equal
  have column := exactly.exactColumn
  have wrappedColumn : other.span.col =
      colBehind ([] ++ List.replicate blanks ' ') % 2 ^ 32 := wrapped.column
  rw [List.nil_append, colBehind_replicate] at column wrappedColumn
  rw [← wrappedColumn, equal.1, column]

/-- The counter of columns wraps: behind 2 ^ 32 blanks a name is at column 1. -/
theorem column_wraps :
    ¬∃ tokens, (tokenize (indentedName (2 ^ 32)) "main.slfr").tokens =
        tokens ++ [{ type := .eof, span := spanBehind (indentedName (2 ^ 32)) }] ∧
      Factors ExactMatch [] (indentedName (2 ^ 32)) tokens := by
  rintro ⟨tokens, equal, factors⟩
  have exact := colBehind_of_exact equal factors
  norm_num at exact

end Sulfur
