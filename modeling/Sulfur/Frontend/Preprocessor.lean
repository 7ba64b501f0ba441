import Sulfur.Frontend.Line
import Mathlib.Data.List.DropRight

/-!
# Preprocessor

Two passes rewrite the source before the lexer reads it: one deletes the carriage
returns and one the comments.  The lexer takes the columns of the tokens from what is
left.
-/

namespace Sulfur

/-- The characters of a C string. -/
def cString (text : List Char) : List Char :=
  text.takeWhile (· ≠ '\x00')

/-- `remove_carriage_return`. -/
def removeCarriageReturn (str : List Char) : List Char :=
  str.filter (· ≠ '\r')

/-- The loops of `remove_comments`: the inner one runs inside of a comment. -/
def removeCommentsFrom (inComment : Bool) : List Char → List Char
  | [] => []
  | c :: rest =>
      if c = '\n' then
        c :: removeCommentsFrom false rest
      else if inComment || (c = '/' && rest.head? = some '/') then
        removeCommentsFrom true rest
      else
        c :: removeCommentsFrom false rest

/-- `remove_comments`. -/
def removeComments (str : List Char) : List Char :=
  removeCommentsFrom false str

/-- `sf_preprocess`, on the characters in front of the first NUL. -/
def preprocess (src : List Char) : List Char :=
  removeComments (removeCarriageReturn (cString src))

/-! ## The law of the preprocessor -/

/-- The text with a blank for every character of a comment. -/
def blankCommentsFrom (inComment : Bool) : List Char → List Char
  | [] => []
  | c :: rest =>
      if c = '\n' then
        c :: blankCommentsFrom false rest
      else if inComment || (c = '/' && rest.head? = some '/') then
        ' ' :: blankCommentsFrom true rest
      else
        c :: blankCommentsFrom false rest

/-- A text with its comments made blank, which keeps its lines and columns. -/
def blankComments (text : List Char) : List Char :=
  blankCommentsFrom false text

/-- What a token says and where it stands. -/
def Token.place (token : Token) : TokenType × String × Nat × Nat :=
  (token.type, token.value, token.span.line, token.span.col)

/-- The tokens of the preprocessed source are those of the source, whose carriage returns
and comments are white space, at the places that they have there. -/
def PreservesTokens (source : List Char) (filename : String) : Prop :=
  (tokenize (preprocess source) filename).tokens.map Token.place =
    (tokenize (blankComments source) filename).tokens.map Token.place

/-- The part of a line before its comment. -/
def codeOf : List Char → List Char
  | [] => []
  | c :: rest => if c = '/' && rest.head? = some '/' then [] else c :: codeOf rest

/-- The code of a line without the white space at its end. -/
def bodyOf (line : List Char) : List Char :=
  (codeOf line).rdropWhile isSpace

/-- No carriage return stands before a token, and none alone between a slash and a
comment. -/
structure TidyLine (line : List Char) : Prop where
  body : '\r' ∉ bodyOf line
  comment : codeOf line = line ∨ (bodyOf line).getLast? ≠ some '/' ∨
    ∃ c ∈ (codeOf line).drop (bodyOf line).length, c ≠ '\r'

instance (line : List Char) : Decidable (TidyLine line) :=
  decidable_of_iff ('\r' ∉ bodyOf line ∧
      (codeOf line = line ∨ (bodyOf line).getLast? ≠ some '/' ∨
        ((codeOf line).drop (bodyOf line).length).any (· ≠ '\r')))
    ⟨fun both => ⟨both.1, by simpa using both.2⟩,
      fun tidy => ⟨tidy.body, by simpa using tidy.comment⟩⟩

/-- All lines that end are tidy, and the last one has neither a carriage return nor a
comment. -/
structure Tidy (source : List Char) : Prop where
  lines : ∀ line ∈ (source.splitOn '\n').dropLast, TidyLine line
  lastReturn : '\r' ∉ (source.splitOn '\n').getLastD []
  lastComment : codeOf ((source.splitOn '\n').getLastD []) = (source.splitOn '\n').getLastD []

/-! ## The passes on lines -/

theorem removeCommentsFrom_newline (inComment : Bool) {line : List Char} (oneLine : '\n' ∉ line)
    (rest : List Char) : removeCommentsFrom inComment (line ++ '\n' :: rest) =
      removeCommentsFrom inComment line ++ '\n' :: removeCommentsFrom false rest := by
  induction line generalizing inComment with
  | nil => simp [removeCommentsFrom]
  | cons c line inductionHypothesis =>
      rw [List.mem_cons, not_or] at oneLine
      have head : (line ++ '\n' :: rest).head? = some '/' ↔ line.head? = some '/' := by
        cases line <;> simp
      simp only [List.cons_append, removeCommentsFrom, if_neg (Ne.symm oneLine.1),
        inductionHypothesis _ oneLine.2, head]
      split <;> rfl

theorem blankCommentsFrom_newline (inComment : Bool) {line : List Char} (oneLine : '\n' ∉ line)
    (rest : List Char) : blankCommentsFrom inComment (line ++ '\n' :: rest) =
      blankCommentsFrom inComment line ++ '\n' :: blankCommentsFrom false rest := by
  induction line generalizing inComment with
  | nil => simp [blankCommentsFrom]
  | cons c line inductionHypothesis =>
      rw [List.mem_cons, not_or] at oneLine
      have head : (line ++ '\n' :: rest).head? = some '/' ↔ line.head? = some '/' := by
        cases line <;> simp
      simp only [List.cons_append, blankCommentsFrom, if_neg (Ne.symm oneLine.1),
        inductionHypothesis _ oneLine.2, head]
      split <;> rfl

theorem removeComments_line {line : List Char} (oneLine : '\n' ∉ line) :
    removeComments line = codeOf line := by
  have inside (line : List Char) (oneLine : '\n' ∉ line) : removeCommentsFrom true line = [] := by
    induction line with
    | nil => rfl
    | cons c line inductionHypothesis =>
        rw [List.mem_cons, not_or] at oneLine
        rw [removeCommentsFrom, if_neg (Ne.symm oneLine.1), Bool.true_or, if_pos rfl,
          inductionHypothesis oneLine.2]
  unfold removeComments
  induction line with
  | nil => rfl
  | cons c line inductionHypothesis =>
      rw [List.mem_cons, not_or] at oneLine
      rw [removeCommentsFrom, codeOf, if_neg (Ne.symm oneLine.1), Bool.false_or,
        inside line oneLine.2, inductionHypothesis oneLine.2]

/-! ## The code of a line -/

/-- What stands behind the code is a comment. -/
def IsComment (comment : List Char) : Prop :=
  comment = [] ∨ ∃ rest, comment = '/' :: '/' :: rest

theorem IsComment.codeOf {comment : List Char} (isComment : IsComment comment) :
    codeOf comment = [] := by
  rcases isComment with rfl | ⟨rest, rfl⟩ <;> rfl

theorem IsComment.removeCarriageReturn {comment : List Char} (isComment : IsComment comment) :
    IsComment (removeCarriageReturn comment) := by
  rcases isComment with rfl | ⟨rest, rfl⟩
  · exact Or.inl rfl
  · exact Or.inr ⟨Sulfur.removeCarriageReturn rest, rfl⟩

theorem codeOf_spec (line : List Char) :
    ∃ comment, line = codeOf line ++ comment ∧ IsComment comment := by
  induction line with
  | nil => exact ⟨[], rfl, Or.inl rfl⟩
  | cons c line inductionHypothesis =>
      rw [codeOf]
      by_cases starts : c = '/' ∧ line.head? = some '/'
      · rw [if_pos (by simpa using starts)]
        rcases starts with ⟨rfl, isNext⟩
        cases line with
        | nil => cases isNext
        | cons next line =>
            rw [List.head?_cons, Option.some.injEq] at isNext
            exact ⟨_, rfl, Or.inr ⟨line, by rw [isNext]⟩⟩
      · rw [if_neg (by simpa using starts)]
        rcases inductionHypothesis with ⟨comment, split, isComment⟩
        exact ⟨comment, by rw [List.cons_append, ← split], isComment⟩

theorem head?_codeOf {line : List Char} {c : Char} (isHead : c ∈ (codeOf line).head?) :
    c ∈ line.head? := by
  cases line with
  | nil => cases isHead
  | cons first line =>
      rw [codeOf] at isHead
      split at isHead
      · cases isHead
      · exact isHead

/-- There is no comment in the code. -/
theorem codeOf_codeOf (line : List Char) : codeOf (codeOf line) = codeOf line := by
  induction line with
  | nil => rfl
  | cons c line inductionHypothesis =>
      rw [codeOf]
      by_cases starts : c = '/' ∧ line.head? = some '/'
      · rw [if_pos (by simpa using starts)]
        rfl
      · rw [if_neg (by simpa using starts), codeOf, inductionHypothesis, if_neg]
        simp only [Bool.and_eq_true, decide_eq_true_eq]
        exact fun both => starts ⟨both.1, head?_codeOf both.2⟩

theorem codeOf_prefix {code rest : List Char} (noComment : codeOf (code ++ rest) = code ++ rest) :
    codeOf code = code := by
  induction code with
  | nil => rfl
  | cons c code inductionHypothesis =>
      rw [List.cons_append, codeOf] at noComment
      by_cases starts : c = '/' ∧ (code ++ rest).head? = some '/'
      · rw [if_pos (by simpa using starts)] at noComment
        cases noComment
      · rw [if_neg (by simpa using starts), List.cons.injEq] at noComment
        rw [codeOf, if_neg, inductionHypothesis noComment.2]
        simp only [Bool.and_eq_true, decide_eq_true_eq]
        rintro ⟨slash, isNext⟩
        exact starts ⟨slash, by rw [List.head?_append, isNext]; rfl⟩

/-- A comment starts in one of two texts or between them. -/
theorem codeOf_append {code : List Char} (noComment : codeOf code = code) {rest : List Char}
    (between : ¬(code.getLast? = some '/' ∧ rest.head? = some '/')) :
    codeOf (code ++ rest) = code ++ codeOf rest := by
  induction code with
  | nil => rfl
  | cons c code inductionHypothesis =>
      rw [codeOf] at noComment
      by_cases starts : c = '/' ∧ code.head? = some '/'
      · rw [if_pos (by simpa using starts)] at noComment
        cases noComment
      · rw [if_neg (by simpa using starts), List.cons.injEq] at noComment
        cases code with
        | nil =>
            rw [List.getLast?_singleton, Option.some.injEq] at between
            rw [List.cons_append, List.nil_append, codeOf, if_neg (by simpa using between)]
            rfl
        | cons next code =>
            rw [List.getLast?_cons_cons] at between
            rw [List.cons_append, codeOf, inductionHypothesis noComment.2 between, if_neg]
            · rfl
            · simpa using starts

theorem codeOf_of_noSlash {text : List Char} (noSlash : '/' ∉ text) : codeOf text = text := by
  induction text with
  | nil => rfl
  | cons c text inductionHypothesis =>
      rw [List.mem_cons, not_or] at noSlash
      rw [codeOf, inductionHypothesis noSlash.2, if_neg]
      simp [Ne.symm noSlash.1]

/-- The code ends at the comment or before. -/
theorem codeOf_append_comment (text : List Char) {comment : List Char}
    (isComment : IsComment comment) : codeOf (text ++ comment) <+: text := by
  induction text with
  | nil => rw [List.nil_append, isComment.codeOf]
  | cons c text inductionHypothesis =>
      rw [List.cons_append, codeOf]
      split
      · exact List.nil_prefix
      · exact List.cons_prefix_cons.mpr ⟨rfl, inductionHypothesis⟩

theorem blankComments_line {line : List Char} (oneLine : '\n' ∉ line) {comment : List Char}
    (split : line = codeOf line ++ comment) :
    blankComments line = codeOf line ++ List.replicate comment.length ' ' := by
  have inside (line : List Char) (oneLine : '\n' ∉ line) :
      blankCommentsFrom true line = List.replicate line.length ' ' := by
    induction line with
    | nil => rfl
    | cons c line inductionHypothesis =>
        rw [List.mem_cons, not_or] at oneLine
        rw [blankCommentsFrom, if_neg (Ne.symm oneLine.1), Bool.true_or, if_pos rfl,
          inductionHypothesis oneLine.2, List.length_cons, List.replicate_succ]
  unfold blankComments
  induction line with
  | nil =>
      rw [(List.append_eq_nil_iff.mp split.symm).2]
      rfl
  | cons c line inductionHypothesis =>
      rw [List.mem_cons, not_or] at oneLine
      rw [codeOf] at split ⊢
      rw [blankCommentsFrom, if_neg (Ne.symm oneLine.1), Bool.false_or, inside line oneLine.2]
      by_cases starts : c = '/' ∧ line.head? = some '/'
      · rw [if_pos (by simpa using starts)] at split ⊢
        rw [if_pos (by simpa using starts), List.nil_append, ← List.nil_append comment, ← split,
          List.length_cons, List.replicate_succ]
      · rw [if_neg (by simpa using starts)] at split ⊢
        rw [List.cons_append, List.cons.injEq] at split
        rw [if_neg (by simpa using starts), inductionHypothesis oneLine.2 split.2]
        rfl

/-! ## Tidy lines -/

/-- A text is white space behind a text that ends in something else. -/
theorem rdropWhile_isSpace_spec (text : List Char) :
    ∃ spaces, text = text.rdropWhile isSpace ++ spaces ∧ (∀ c ∈ spaces, isSpace c) ∧
      ∀ last ∈ (text.rdropWhile isSpace).getLast?, isSpace last = false := by
  refine ⟨text.rtakeWhile isSpace, ?_, ?_, ?_⟩
  · exact List.rdropWhile_append_rtakeWhile.symm
  · intro c inSpaces
    exact List.mem_rtakeWhile_imp inSpaces
  · intro last isLast
    rcases List.mem_getLast?_eq_getLast isLast with ⟨nonempty, rfl⟩
    exact Bool.eq_false_iff.mpr (List.rdropWhile_last_not isSpace text nonempty)

/-- What the preprocessor keeps of a line. -/
def keptOf (line : List Char) : List Char :=
  codeOf (removeCarriageReturn line)

theorem mem_removeCarriageReturn {text : List Char} {c : Char} :
    c ∈ removeCarriageReturn text ↔ c ∈ text ∧ c ≠ '\r' := by
  simp [removeCarriageReturn]

theorem removeCarriageReturn_append (first rest : List Char) :
    removeCarriageReturn (first ++ rest) =
      removeCarriageReturn first ++ removeCarriageReturn rest :=
  List.filter_append ..

theorem removeCarriageReturn_eq_self {text : List Char} (noReturn : '\r' ∉ text) :
    removeCarriageReturn text = text := by
  apply List.filter_eq_self.mpr
  rintro c inText
  rw [decide_eq_true_eq]
  rintro rfl
  exact noReturn inText

/-- Of a tidy line the preprocessor keeps the body and white space. -/
theorem TidyLine.keptOf_eq {line : List Char} (tidy : TidyLine line) :
    ∃ spaces, keptOf line = bodyOf line ++ spaces ∧ ∀ c ∈ spaces, isSpace c := by
  rcases codeOf_spec line with ⟨comment, lineSplit, isComment⟩
  rcases rdropWhile_isSpace_spec (codeOf line) with ⟨trail, codeSplit, spaces, -⟩
  change codeOf line = bodyOf line ++ trail at codeSplit
  have noSlash : '/' ∉ removeCarriageReturn trail := by
    intro inTrail
    have space := spaces '/' (mem_removeCarriageReturn.mp inTrail).1
    cases space
  have bodyCode : codeOf (bodyOf line) = bodyOf line := by
    have noComment := codeOf_codeOf line
    rw [codeSplit] at noComment
    exact codeOf_prefix noComment
  have between : ¬((bodyOf line).getLast? = some '/' ∧
      (removeCarriageReturn trail ++ removeCarriageReturn comment).head? = some '/') := by
    rintro ⟨slash, isHead⟩
    cases kept : removeCarriageReturn trail with
    | cons c others =>
        rw [kept, List.cons_append, List.head?_cons, Option.some.injEq] at isHead
        rw [kept, isHead] at noSlash
        exact noSlash List.mem_cons_self
    | nil =>
        rcases tidy.comment with noComment | notSlash | ⟨c, inTrail, notReturn⟩
        · rw [noComment] at lineSplit
          rw [kept, List.append_right_eq_self.mp lineSplit.symm] at isHead
          cases isHead
        · exact notSlash slash
        · rw [codeSplit, List.drop_left] at inTrail
          have isKept := mem_removeCarriageReturn.mpr ⟨inTrail, notReturn⟩
          rw [kept] at isKept
          cases isKept
  refine ⟨removeCarriageReturn trail, ?_, ?_⟩
  · have notAfter : ¬((removeCarriageReturn trail).getLast? = some '/' ∧
        (removeCarriageReturn comment).head? = some '/') := by
      rintro ⟨slash, -⟩
      exact noSlash (List.mem_of_getLast? slash)
    have text : removeCarriageReturn line = bodyOf line ++
        (removeCarriageReturn trail ++ removeCarriageReturn comment) := by
      conv_lhs => rw [lineSplit, codeSplit]
      rw [removeCarriageReturn_append, removeCarriageReturn_append,
        removeCarriageReturn_eq_self tidy.body, List.append_assoc]
    rw [keptOf, text, codeOf_append bodyCode between,
      codeOf_append (codeOf_of_noSlash noSlash) notAfter,
      isComment.removeCarriageReturn.codeOf, List.append_nil]
  · intro c inTrail
    exact spaces c (mem_removeCarriageReturn.mp inTrail).1

theorem tokensFrom_append_spaces (lines : Nat) {text spaces : List Char}
    (nulFree : '\x00' ∉ text) (areSpaces : ∀ c ∈ spaces, isSpace c) :
    tokensFrom lines (text ++ spaces) = tokensFrom lines text := by
  have wholeNulFree : '\x00' ∉ text ++ spaces := by
    intro inText
    rcases List.mem_append.mp inText with inText | inSpaces
    · exact nulFree inText
    · cases areSpaces _ inSpaces
  apply Eq.symm
  rw [← factors_iff_tokensFrom wholeNulFree]
  exact ((factors_iff_tokensFrom nulFree).mpr rfl).append_spaces areSpaces

/-- The blanked line is the body and white space. -/
theorem blankComments_eq {line : List Char} (oneLine : '\n' ∉ line) :
    ∃ spaces, blankComments line = bodyOf line ++ spaces ∧ ∀ c ∈ spaces, isSpace c := by
  rcases codeOf_spec line with ⟨comment, lineSplit, -⟩
  rcases rdropWhile_isSpace_spec (codeOf line) with ⟨trail, codeSplit, spaces, -⟩
  refine ⟨trail ++ List.replicate comment.length ' ', ?_, ?_⟩
  · rw [blankComments_line oneLine lineSplit]
    conv_lhs => rw [codeSplit]
    rw [List.append_assoc, bodyOf]
  · intro c inSpaces
    rcases List.mem_append.mp inSpaces with inTrail | isBlank
    · exact spaces c inTrail
    · rw [List.eq_of_mem_replicate isBlank]
      rfl

theorem bodyOf_subset (line : List Char) : bodyOf line ⊆ line := by
  rcases codeOf_spec line with ⟨comment, lineSplit, -⟩
  intro c inBody
  rw [lineSplit]
  exact List.mem_append_left _ ((List.rdropWhile_prefix isSpace _).subset inBody)

/-- A tidy line keeps its tokens. -/
theorem TidyLine.tokensFrom_eq {line : List Char} (tidy : TidyLine line)
    (oneLine : '\n' ∉ line) (nulFree : '\x00' ∉ line) (lines : Nat) :
    tokensFrom lines (keptOf line) = tokensFrom lines (blankComments line) := by
  have bodyNulFree : '\x00' ∉ bodyOf line := fun inBody => nulFree (bodyOf_subset line inBody)
  rcases tidy.keptOf_eq with ⟨spaces, kept, areSpaces⟩
  rcases blankComments_eq oneLine with ⟨blanks, blanked, areBlanks⟩
  rw [kept, blanked, tokensFrom_append_spaces lines bodyNulFree areSpaces,
    tokensFrom_append_spaces lines bodyNulFree areBlanks]

/-! ## Lines that lose a token -/

/-- White space behind a text is not part of what ends in something else. -/
theorem prefix_of_prefix_append_spaces {first text spaces : List Char} {last : Char}
    (isLast : last ∈ first.getLast?) (notSpace : isSpace last = false)
    (areSpaces : ∀ c ∈ spaces, isSpace c) (isPrefix : first <+: text ++ spaces) :
    first <+: text := by
  rcases List.prefix_or_prefix_of_prefix isPrefix (List.prefix_append text spaces) with
    inText | ⟨more, rfl⟩
  · exact inText
  · cases more using List.reverseRecOn with
    | nil => rw [List.append_nil]
    | append_singleton more c =>
        rw [List.prefix_append_right_inj] at isPrefix
        rw [← List.append_assoc, List.getLast?_concat, Option.mem_some_iff] at isLast
        have space := areSpaces c (isPrefix.subset (by simp))
        rw [isLast, notSpace] at space
        cases space

theorem keptOf_prefix {line comment : List Char} (lineSplit : line = codeOf line ++ comment)
    (isComment : IsComment comment) : keptOf line <+: removeCarriageReturn (codeOf line) := by
  unfold keptOf
  conv_lhs => rw [lineSplit]
  rw [removeCarriageReturn_append]
  exact codeOf_append_comment _ isComment.removeCarriageReturn

/-- The last token of a text whose last characters are its own. -/
theorem exists_last_tokensFrom (lines : Nat) {text spaces : List Char}
    (nulFree : '\x00' ∉ text ++ spaces) (nonempty : text ≠ [])
    (notSpace : ∀ last ∈ text.getLast?, isSpace last = false)
    (areSpaces : ∀ c ∈ spaces, isSpace c) :
    ∃ others token first lexeme, tokensFrom lines (text ++ spaces) = others ++ [token] ∧
      text = first ++ lexeme ∧
      ReadsLexeme (List.replicate lines '\n' ++ first) lexeme spaces token ∧
      Apart (List.replicate lines '\n' ++ first) lexeme := by
  have start : Apart (List.replicate lines '\n') (text ++ spaces) := by
    intro last isLast next _
    rw [List.eq_of_mem_replicate (List.mem_of_mem_getLast? isLast)]
    rintro (⟨ident, -⟩ | ⟨stray, -⟩)
    · cases ident
    · cases stray
  have whole : Factors ReadsLexeme (List.replicate lines '\n') (text ++ spaces)
      (tokensFrom lines (text ++ spaces)) := (factors_iff_tokensFrom nulFree).mpr rfl
  have factors := whole.apart start
  have isLast := List.getLast?_eq_some_getLast nonempty
  exact factors.exists_last (fun _ _ _ _ isRead => isRead.1) isLast (notSpace _ isLast) areSpaces

/-- Tokens of one line at one place start at the same character. -/
theorem length_eq_of_place {lines : Nat} {first lexeme rest : List Char}
    {other otherLexeme otherRest : List Char} {token otherToken : Token}
    (isRead : ReadsLexeme (List.replicate lines '\n' ++ first) lexeme rest token)
    (otherRead : ReadsLexeme (List.replicate lines '\n' ++ other) otherLexeme otherRest
      otherToken)
    (oneLine : '\n' ∉ first) (otherLine : '\n' ∉ other) (short : first.length < 2 ^ 32)
    (otherShort : other.length < 2 ^ 32) (same : token.place = otherToken.place) :
    first.length = other.length := by
  have start : colBehind (List.replicate lines '\n') = 1 := by
    cases lines with
    | zero => rfl
    | succ lines => rw [List.replicate_succ', colBehind_newline]
  have column : token.span.col = colBehind (List.replicate lines '\n' ++ first) % 2 ^ 32 :=
    isRead.longestMatch.column
  have otherColumn : otherToken.span.col =
      colBehind (List.replicate lines '\n' ++ other) % 2 ^ 32 := otherRead.longestMatch.column
  rw [colBehind_append oneLine, start] at column
  rw [colBehind_append otherLine, start] at otherColumn
  have sameColumn : token.span.col = otherToken.span.col :=
    (Prod.mk.inj (Prod.mk.inj (Prod.mk.inj same).2).2).2
  rw [column, otherColumn] at sameColumn
  omega

/-- A token does not start inside of a lexeme with the same token. -/
theorem eq_nil_of_shift {before lexeme rest other otherLexeme otherRest shift : List Char}
    {token otherToken : Token} (isRead : ReadsLexeme before lexeme rest token)
    (otherRead : ReadsLexeme (other ++ shift) otherLexeme otherRest otherToken)
    (apart : Apart (other ++ shift) otherLexeme) (isPrefix : shift ++ otherLexeme <+: lexeme)
    (sameType : token.type = otherToken.type) : shift = [] := by
  cases shift using List.reverseRecOn with
  | nil => rfl
  | append_singleton shift last =>
      cases whole : otherLexeme with
      | nil => exact absurd whole otherRead.nonempty
      | cons next others =>
          have lastIn : last ∈ lexeme := isPrefix.subset (by simp)
          have nextIn : next ∈ lexeme := isPrefix.subset (by simp [whole])
          have notJoins : ¬Joins last next := by
            apply apart last _ next
            · rw [whole]
              rfl
            · rw [← List.append_assoc, List.getLast?_concat]
              rfl
          rcases isRead.kind with run | run | ⟨-, isSymbol⟩
          · exact absurd (Or.inl ⟨run.inside last lastIn, run.inside next nextIn⟩) notJoins
          · exact absurd (Or.inr ⟨run.inside last lastIn, run.inside next nextIn⟩) notJoins
          · have same := isRead.text_eq_of_symbol otherRead isSymbol sameType
            have shorter := isPrefix.length_le
            rw [same, List.length_append, List.length_append, List.length_singleton] at shorter
            omega

/-- A lexeme with a slash is a symbol. -/
theorem ReadsLexeme.isSymbol_of_slash {before text rest : List Char} {token : Token}
    (isRead : ReadsLexeme before text rest token) (slash : '/' ∈ text) :
    token.type ∈ kSymbols.map Prod.fst := by
  rcases isRead.kind with run | run | ⟨-, isSymbol⟩
  · cases run.inside '/' slash
  · have notStray : isStray '/' = false := by decide
    have stray := run.inside '/' slash
    rw [notStray] at stray
    cases stray
  · exact isSymbol

theorem length_removeCarriageReturn_le (text : List Char) :
    (removeCarriageReturn text).length ≤ text.length :=
  List.length_filter_le ..

theorem noReturn_of_length_eq {text : List Char}
    (same : text.length ≤ (removeCarriageReturn text).length) : '\r' ∉ text := by
  intro inText
  have kept := List.length_filter_eq_length_iff.mp
    (le_antisymm (length_removeCarriageReturn_le text) same) '\r' inText
  cases kept

/-- The comment that the preprocessor sees starts where the comment of the line does. -/
theorem comment_of_length_lt (line : List Char) (noReturn : '\r' ∉ bodyOf line)
    (longer : ∀ body, bodyOf line = body ++ ['/'] → ¬keptOf line <+: body) :
    codeOf line = line ∨ (bodyOf line).getLast? ≠ some '/' ∨
      ∃ c ∈ (codeOf line).drop (bodyOf line).length, c ≠ '\r' := by
  rcases codeOf_spec line with ⟨comment, lineSplit, isComment⟩
  rcases rdropWhile_isSpace_spec (codeOf line) with ⟨trail, codeSplit, -, -⟩
  change codeOf line = bodyOf line ++ trail at codeSplit
  rcases isComment with rfl | ⟨rest, rfl⟩
  · rw [List.append_nil] at lineSplit
    exact Or.inl lineSplit.symm
  · apply Or.inr
    by_contra neither
    rw [not_or, not_not] at neither
    rcases neither with ⟨slash, onlyReturns⟩
    rcases List.getLast?_eq_some_iff.mp slash with ⟨body, bodySplit⟩
    apply longer body bodySplit
    have nothing : removeCarriageReturn trail = [] := by
      apply List.filter_eq_nil_iff.mpr
      intro c inTrail kept
      apply onlyReturns
      rw [codeSplit, List.drop_left]
      exact ⟨c, inTrail, of_decide_eq_true kept⟩
    have text : removeCarriageReturn line =
        body ++ '/' :: '/' :: '/' :: removeCarriageReturn rest := by
      conv_lhs => rw [lineSplit, codeSplit]
      rw [removeCarriageReturn_append, removeCarriageReturn_append, nothing,
        removeCarriageReturn_eq_self noReturn, bodySplit]
      simp [removeCarriageReturn]
    rw [keptOf, text]
    exact codeOf_append_comment body (Or.inr ⟨_, rfl⟩)

/-- Two texts with the same tokens at the same places have their last ones behind as many
characters. -/
theorem exists_same_last {lines : Nat} {text spaces other otherSpaces : List Char}
    (nulFree : '\x00' ∉ text ++ spaces) (otherNulFree : '\x00' ∉ other ++ otherSpaces)
    (oneLine : '\n' ∉ text) (otherLine : '\n' ∉ other) (short : text.length < 2 ^ 32)
    (otherShort : other.length < 2 ^ 32) (nonempty : text ≠ [])
    (notSpace : ∀ last ∈ text.getLast?, isSpace last = false)
    (otherNotSpace : ∀ last ∈ other.getLast?, isSpace last = false)
    (areSpaces : ∀ c ∈ spaces, isSpace c) (otherAreSpaces : ∀ c ∈ otherSpaces, isSpace c)
    (same : (tokensFrom lines (other ++ otherSpaces)).map Token.place =
      (tokensFrom lines (text ++ spaces)).map Token.place) :
    ∃ first lexeme token otherFirst otherLexeme otherToken,
      text = first ++ lexeme ∧ other = otherFirst ++ otherLexeme ∧
      ReadsLexeme (List.replicate lines '\n' ++ first) lexeme spaces token ∧
      ReadsLexeme (List.replicate lines '\n' ++ otherFirst) otherLexeme otherSpaces otherToken ∧
      Apart (List.replicate lines '\n' ++ otherFirst) otherLexeme ∧
      first.length = otherFirst.length ∧ token.type = otherToken.type := by
  rcases exists_last_tokensFrom lines nulFree nonempty notSpace areSpaces with
    ⟨tokens, token, first, lexeme, tokensEqual, rfl, isRead, -⟩
  have otherNonempty : other ≠ [] := by
    rintro rfl
    have nothing : tokensFrom lines ([] ++ otherSpaces) = [] :=
      ((factors_iff_tokensFrom otherNulFree).mpr rfl).eq_nil_of_spaces otherAreSpaces
    rw [nothing, tokensEqual, List.map_append] at same
    exact List.append_ne_nil_of_right_ne_nil _ (List.cons_ne_nil _ _) same.symm
  rcases exists_last_tokensFrom lines otherNulFree otherNonempty otherNotSpace otherAreSpaces with
    ⟨otherTokens, otherToken, otherFirst, otherLexeme, otherEqual, rfl, otherRead, apart⟩
  rw [tokensEqual, otherEqual, List.map_append, List.map_append] at same
  have samePlace : otherToken.place = token.place :=
    List.singleton_injective (List.append_inj_right' same rfl)
  rw [List.mem_append, not_or] at oneLine otherLine
  rw [List.length_append] at short otherShort
  have sameLength := length_eq_of_place isRead otherRead oneLine.1 otherLine.1 (by omega)
    (by omega) samePlace.symm
  exact ⟨first, lexeme, token, otherFirst, otherLexeme, otherToken, rfl, rfl, isRead, otherRead,
    apart, sameLength, (Prod.mk.inj samePlace).1.symm⟩

theorem keptOf_subset (line : List Char) : keptOf line ⊆ line := by
  rcases codeOf_spec (removeCarriageReturn line) with ⟨comment, split, -⟩
  intro c isKept
  have inText : c ∈ removeCarriageReturn line := by
    rw [split]
    exact List.mem_append_left _ isKept
  exact (mem_removeCarriageReturn.mp inText).1

theorem length_keptOf_le (line : List Char) :
    (keptOf line).length ≤ (removeCarriageReturn line).length := by
  rcases codeOf_spec (removeCarriageReturn line) with ⟨comment, split, -⟩
  conv_rhs => rw [split]
  rw [List.length_append]
  exact Nat.le_add_right _ _

theorem blankComments_length {line : List Char} (oneLine : '\n' ∉ line) :
    (blankComments line).length = line.length := by
  rcases codeOf_spec line with ⟨comment, split, -⟩
  rw [blankComments_line oneLine split]
  conv_rhs => rw [split]
  simp

theorem nulFree_blankComments {line : List Char} (oneLine : '\n' ∉ line)
    (nulFree : '\x00' ∉ line) : '\x00' ∉ blankComments line := by
  rcases blankComments_eq oneLine with ⟨blanks, blanked, areBlanks⟩
  rw [blanked, List.mem_append, not_or]
  constructor
  · exact fun inBody => nulFree (bodyOf_subset line inBody)
  · intro inBlanks
    cases areBlanks _ inBlanks

theorem ReadsLexeme.noReturn {before text rest : List Char} {token : Token}
    (isRead : ReadsLexeme before text rest token) : '\r' ∉ text := by
  intro inText
  cases isRead.notSpace_of_mem inText

/-- No carriage return is deleted before a token that keeps its place. -/
theorem noReturn_of_isPrefix {before first lexeme rest : List Char}
    {otherBefore other otherLexeme otherRest : List Char} {token otherToken : Token}
    (isRead : ReadsLexeme before lexeme rest token)
    (otherRead : ReadsLexeme (otherBefore ++ other) otherLexeme otherRest otherToken)
    (apart : Apart (otherBefore ++ other) otherLexeme)
    (isPrefix : other ++ otherLexeme <+: removeCarriageReturn first ++ lexeme)
    (sameLength : first.length = other.length) (sameType : token.type = otherToken.type) :
    '\r' ∉ first := by
  have shorter : (removeCarriageReturn first).length ≤ other.length :=
    (length_removeCarriageReturn_le first).trans sameLength.le
  have otherPrefix := (List.prefix_append other otherLexeme).trans isPrefix
  rcases List.prefix_of_prefix_length_le (List.prefix_append _ lexeme) otherPrefix shorter with
    ⟨shift, rfl⟩
  rw [List.append_assoc, List.prefix_append_right_inj] at isPrefix
  rw [← List.append_assoc] at otherRead apart
  have nothing := eq_nil_of_shift isRead otherRead apart isPrefix sameType
  rw [nothing, List.append_nil] at sameLength
  exact noReturn_of_length_eq sameLength.le

/-- A line that keeps the places of its tokens is tidy. -/
theorem tidyLine_of_places {lines : Nat} {line : List Char} (oneLine : '\n' ∉ line)
    (nulFree : '\x00' ∉ line) (short : line.length < 2 ^ 32)
    (same : (tokensFrom lines (keptOf line)).map Token.place =
      (tokensFrom lines (blankComments line)).map Token.place) : TidyLine line := by
  by_cases empty : bodyOf line = []
  · constructor
    · rw [empty]
      exact List.not_mem_nil
    · rw [empty]
      exact Or.inr (Or.inl nofun)
  · rcases codeOf_spec line with ⟨comment, lineSplit, isComment⟩
    rcases rdropWhile_isSpace_spec (codeOf line) with ⟨trail, codeSplit, trailSpaces, notSpace⟩
    rcases blankComments_eq oneLine with ⟨blanks, blanked, areBlanks⟩
    rcases rdropWhile_isSpace_spec (keptOf line) with ⟨spaces, keptSplit, areSpaces, keptNotSpace⟩
    have blankedNulFree := nulFree_blankComments oneLine nulFree
    have keptNulFree : '\x00' ∉ keptOf line := fun isKept => nulFree (keptOf_subset line isKept)
    have keptLine : '\n' ∉ keptOf line := fun isKept => oneLine (keptOf_subset line isKept)
    have bodyLine : '\n' ∉ bodyOf line := fun inBody => oneLine (bodyOf_subset line inBody)
    have keptShort := (length_keptOf_le line).trans (length_removeCarriageReturn_le line)
    have bodyShort := congrArg List.length blanked
    rw [blankComments_length oneLine, List.length_append] at bodyShort
    change codeOf line = bodyOf line ++ trail at codeSplit
    have keptPrefix := keptOf_prefix lineSplit isComment
    have commentLater := comment_of_length_lt line
    generalize (keptOf line).rdropWhile isSpace = kept at keptSplit keptNotSpace
    rw [keptSplit] at same keptNulFree keptLine keptShort keptPrefix
    rw [blanked] at same blankedNulFree
    rw [List.length_append] at keptShort
    rw [List.mem_append, not_or] at keptLine
    rcases exists_same_last blankedNulFree keptNulFree bodyLine keptLine.1 (by omega) (by omega)
      empty notSpace keptNotSpace areBlanks areSpaces same with
      ⟨first, lexeme, token, other, otherLexeme, otherToken, bodySplit, rfl, isRead, otherRead,
        apart, sameLength, sameType⟩
    have isPrefix : other ++ otherLexeme <+: removeCarriageReturn first ++ lexeme := by
      rw [codeSplit, bodySplit, removeCarriageReturn_append, removeCarriageReturn_append,
        removeCarriageReturn_eq_self isRead.noReturn] at keptPrefix
      have nonempty : other ++ otherLexeme ≠ [] :=
        List.append_ne_nil_of_right_ne_nil _ otherRead.nonempty
      have isLast := List.getLast?_eq_some_getLast nonempty
      apply prefix_of_prefix_append_spaces isLast (keptNotSpace _ isLast) _
        ((List.prefix_append _ spaces).trans keptPrefix)
      intro c inTrail
      exact trailSpaces c (mem_removeCarriageReturn.mp inTrail).1
    have noReturn : '\r' ∉ bodyOf line := by
      rw [bodySplit, List.mem_append, not_or]
      exact ⟨noReturn_of_isPrefix isRead otherRead apart isPrefix sameLength sameType,
        isRead.noReturn⟩
    apply TidyLine.mk noReturn
    apply commentLater noReturn
    -- A comment that starts at the slash of the body would cut the last lexeme short.
    intro body slash keptShorter
    have slashIn : '/' ∈ lexeme := by
      have isLast : (first ++ lexeme).getLast? = some '/' := by
        rw [← bodySplit, slash, List.getLast?_concat]
      rw [List.getLast?_append_of_ne_nil _ isRead.nonempty] at isLast
      exact List.mem_of_getLast? isLast
    have sameText := isRead.text_eq_of_symbol otherRead (isRead.isSymbol_of_slash slashIn) sameType
    have lengths := congrArg List.length (bodySplit.symm.trans slash)
    have shorter := keptShorter.length_le
    rw [keptSplit] at shorter
    simp only [List.length_append, List.length_singleton, sameText] at lengths shorter
    omega

/-! ## Sources -/

theorem removeCommentsFrom_sublist (inComment : Bool) (text : List Char) :
    (removeCommentsFrom inComment text).Sublist text := by
  induction text generalizing inComment with
  | nil => exact List.Sublist.slnil
  | cons c text inductionHypothesis =>
      rw [removeCommentsFrom]
      split
      · exact (inductionHypothesis _).cons_cons c
      · split
        · exact (inductionHypothesis _).cons c
        · exact (inductionHypothesis _).cons_cons c

theorem preprocess_sublist (source : List Char) : (preprocess source).Sublist source :=
  (removeCommentsFrom_sublist _ _).trans
    (List.filter_sublist.trans (List.takeWhile_sublist _))

theorem length_blankCommentsFrom (inComment : Bool) (text : List Char) :
    (blankCommentsFrom inComment text).length = text.length := by
  induction text generalizing inComment with
  | nil => rfl
  | cons c text inductionHypothesis =>
      rw [blankCommentsFrom]
      split
      · rw [List.length_cons, inductionHypothesis, List.length_cons]
      · split <;> rw [List.length_cons, inductionHypothesis, List.length_cons]

theorem mem_of_blankCommentsFrom {inComment : Bool} {text : List Char} {c : Char}
    (inBlanked : c ∈ blankCommentsFrom inComment text) : c ∈ text ∨ c = ' ' := by
  induction text generalizing inComment with
  | nil => cases inBlanked
  | cons first text inductionHypothesis =>
      rw [blankCommentsFrom] at inBlanked
      have others {inComment : Bool} (inBlanked : c ∈ blankCommentsFrom inComment text) :
          c ∈ first :: text ∨ c = ' ' :=
        (inductionHypothesis inBlanked).imp_left (List.mem_cons_of_mem _)
      split at inBlanked
      · rcases List.mem_cons.mp inBlanked with rfl | inRest
        · exact Or.inl List.mem_cons_self
        · exact others inRest
      · split at inBlanked
        · rcases List.mem_cons.mp inBlanked with rfl | inRest
          · exact Or.inr rfl
          · exact others inRest
        · rcases List.mem_cons.mp inBlanked with rfl | inRest
          · exact Or.inl List.mem_cons_self
          · exact others inRest

theorem nulFree_blankedSource {source : List Char} (nulFree : '\x00' ∉ source) :
    '\x00' ∉ blankComments source := by
  intro inBlanked
  rcases mem_of_blankCommentsFrom inBlanked with inSource | isBlank
  · exact nulFree inSource
  · cases isBlank

theorem nulFree_preprocess {source : List Char} (nulFree : '\x00' ∉ source) :
    '\x00' ∉ preprocess source := fun isKept =>
  nulFree ((preprocess_sublist source).subset isKept)

theorem preprocess_eq {source : List Char} (nulFree : '\x00' ∉ source) :
    preprocess source = removeComments (removeCarriageReturn source) := by
  have whole : cString source = source := by
    apply List.takeWhile_eq_self_iff.mpr
    rintro c inSource
    rw [decide_eq_true_eq]
    rintro rfl
    exact nulFree inSource
  rw [preprocess, whole]

theorem count_removeCommentsFrom (inComment : Bool) (text : List Char) :
    (removeCommentsFrom inComment text).count '\n' = text.count '\n' := by
  induction text generalizing inComment with
  | nil => rfl
  | cons c text inductionHypothesis =>
      rw [removeCommentsFrom]
      by_cases newline : c = '\n'
      · rw [if_pos newline, List.count_cons, List.count_cons, inductionHypothesis]
      · rw [if_neg newline, List.count_cons_of_ne newline]
        split
        · exact inductionHypothesis _
        · rw [List.count_cons_of_ne newline, inductionHypothesis]

theorem count_blankCommentsFrom (inComment : Bool) (text : List Char) :
    (blankCommentsFrom inComment text).count '\n' = text.count '\n' := by
  induction text generalizing inComment with
  | nil => rfl
  | cons c text inductionHypothesis =>
      rw [blankCommentsFrom]
      by_cases newline : c = '\n'
      · rw [if_pos newline, List.count_cons, List.count_cons, inductionHypothesis]
      · rw [if_neg newline, List.count_cons_of_ne newline]
        split
        · rw [List.count_cons_of_ne (by decide), inductionHypothesis]
        · rw [List.count_cons_of_ne newline, inductionHypothesis]

/-- The preprocessor keeps the lines. -/
theorem lineBehind_preprocess {source : List Char} (nulFree : '\x00' ∉ source) :
    lineBehind (preprocess source) = lineBehind (blankComments source) := by
  rw [preprocess_eq nulFree, lineBehind, lineBehind, removeComments, blankComments,
    count_removeCommentsFrom, count_blankCommentsFrom, removeCarriageReturn,
    List.count_filter (by decide)]

theorem preprocess_line {line : List Char} (oneLine : '\n' ∉ line) (nulFree : '\x00' ∉ line) :
    preprocess line = keptOf line := by
  have oneLine : '\n' ∉ removeCarriageReturn line := fun inText =>
    oneLine (mem_removeCarriageReturn.mp inText).1
  rw [preprocess_eq nulFree, removeComments_line oneLine, keptOf]

theorem preprocess_newline {line rest : List Char} (oneLine : '\n' ∉ line)
    (nulFree : '\x00' ∉ line ++ '\n' :: rest) :
    preprocess (line ++ '\n' :: rest) = keptOf line ++ '\n' :: preprocess rest := by
  have restNulFree : '\x00' ∉ rest := fun inRest =>
    nulFree (List.mem_append_right _ (List.mem_cons_of_mem _ inRest))
  have keptLine : '\n' ∉ removeCarriageReturn line := fun inText =>
    oneLine (mem_removeCarriageReturn.mp inText).1
  have newline : removeCarriageReturn ('\n' :: rest) = '\n' :: removeCarriageReturn rest := rfl
  rw [preprocess_eq nulFree, preprocess_eq restNulFree, removeCarriageReturn_append, newline,
    removeComments, removeCommentsFrom_newline _ keptLine, keptOf, ← removeComments_line keptLine]
  rfl

theorem blankComments_newline {line : List Char} (oneLine : '\n' ∉ line) (rest : List Char) :
    blankComments (line ++ '\n' :: rest) = blankComments line ++ '\n' :: blankComments rest :=
  blankCommentsFrom_newline false oneLine rest

theorem tidy_line {line : List Char} (oneLine : '\n' ∉ line) :
    Tidy line ↔ '\r' ∉ line ∧ codeOf line = line := by
  constructor
  · rintro ⟨-, noReturn, noComment⟩
    rw [List.splitOn_eq_singleton oneLine] at noReturn noComment
    exact ⟨noReturn, noComment⟩
  · rintro ⟨noReturn, noComment⟩
    constructor
    · rw [List.splitOn_eq_singleton oneLine]
      simp
    · rw [List.splitOn_eq_singleton oneLine]
      exact noReturn
    · rw [List.splitOn_eq_singleton oneLine]
      exact noComment

theorem tidy_newline {line : List Char} (oneLine : '\n' ∉ line) (rest : List Char) :
    Tidy (line ++ '\n' :: rest) ↔ TidyLine line ∧ Tidy rest := by
  have split := List.splitOn_append_cons_self_of_not_mem oneLine rest
  have nonempty := List.splitOn_ne_nil '\n' rest
  have last : ((line ++ '\n' :: rest).splitOn '\n').getLastD [] =
      (rest.splitOn '\n').getLastD [] := by
    rw [split]
    cases whole : rest.splitOn '\n' with
    | nil => exact absurd whole nonempty
    | cons first others => rfl
  constructor
  · rintro ⟨tidyLines, noReturn, noComment⟩
    rw [split, List.dropLast_cons_of_ne_nil nonempty, List.forall_mem_cons] at tidyLines
    rw [last] at noReturn noComment
    exact ⟨tidyLines.1, tidyLines.2, noReturn, noComment⟩
  · rintro ⟨tidyLine, tidyLines, noReturn, noComment⟩
    constructor
    · rw [split, List.dropLast_cons_of_ne_nil nonempty, List.forall_mem_cons]
      exact ⟨tidyLine, tidyLines⟩
    · rw [last]
      exact noReturn
    · rw [last]
      exact noComment

theorem colBehind_newline_append (before text : List Char) :
    colBehind (before ++ '\n' :: text) = colBehind text := by
  unfold colBehind
  rw [List.reverse_append, List.reverse_cons, List.append_assoc]
  congr 2
  induction text.reverse with
  | nil => rfl
  | cons c text inductionHypothesis =>
      rw [List.cons_append, List.takeWhile_cons, List.takeWhile_cons, inductionHypothesis]

theorem tokensFrom_preprocess_newline (lines : Nat) {line rest : List Char}
    (oneLine : '\n' ∉ line) (nulFree : '\x00' ∉ line ++ '\n' :: rest) :
    tokensFrom lines (preprocess (line ++ '\n' :: rest)) =
      tokensFrom lines (keptOf line) ++ tokensFrom (lines + 1) (preprocess rest) := by
  have keptNulFree := nulFree_preprocess nulFree
  rw [preprocess_newline oneLine nulFree] at keptNulFree ⊢
  exact tokensFrom_newline lines (fun isKept => oneLine (keptOf_subset line isKept)) keptNulFree

theorem newline_not_mem_blankComments {line : List Char} (oneLine : '\n' ∉ line) :
    '\n' ∉ blankComments line := by
  intro inBlanked
  rcases mem_of_blankCommentsFrom inBlanked with inLine | isBlank
  · exact oneLine inLine
  · cases isBlank

theorem tokensFrom_blankComments_newline (lines : Nat) {line rest : List Char}
    (oneLine : '\n' ∉ line) (nulFree : '\x00' ∉ line ++ '\n' :: rest) :
    tokensFrom lines (blankComments (line ++ '\n' :: rest)) =
      tokensFrom lines (blankComments line) ++ tokensFrom (lines + 1) (blankComments rest) := by
  have blankedNulFree := nulFree_blankedSource nulFree
  rw [blankComments_newline oneLine] at blankedNulFree ⊢
  exact tokensFrom_newline lines (newline_not_mem_blankComments oneLine) blankedNulFree

/-- The tokens and the end of a tidy source are kept. -/
theorem Tidy.keeps {source : List Char} (nulFree : '\x00' ∉ source) (tidy : Tidy source)
    (lines : Nat) :
    tokensFrom lines (preprocess source) = tokensFrom lines (blankComments source) ∧
      colBehind (preprocess source) = colBehind (blankComments source) := by
  induction source using line_induction generalizing lines with
  | last line oneLine =>
      rcases (tidy_line oneLine).mp tidy with ⟨noReturn, noComment⟩
      have same : preprocess line = blankComments line := by
        have split : line = codeOf line ++ [] := by rw [noComment, List.append_nil]
        rw [preprocess_line oneLine nulFree, keptOf, removeCarriageReturn_eq_self noReturn,
          blankComments_line oneLine split, List.length_nil, List.replicate_zero,
          List.append_nil]
      rw [same]
      exact ⟨rfl, rfl⟩
  | more line rest oneLine inductionHypothesis =>
      rcases (tidy_newline oneLine rest).mp tidy with ⟨tidyLine, tidyRest⟩
      have lineNulFree : '\x00' ∉ line := fun inLine =>
        nulFree (List.mem_append_left _ inLine)
      have restNulFree : '\x00' ∉ rest := fun inRest =>
        nulFree (List.mem_append_right _ (List.mem_cons_of_mem _ inRest))
      rcases inductionHypothesis restNulFree tidyRest (lines + 1) with ⟨sameTokens, sameEnd⟩
      constructor
      · rw [tokensFrom_preprocess_newline lines oneLine nulFree,
          tokensFrom_blankComments_newline lines oneLine nulFree, sameTokens,
          tidyLine.tokensFrom_eq oneLine lineNulFree]
      · rw [preprocess_newline oneLine nulFree, blankComments_newline oneLine,
          colBehind_newline_append, colBehind_newline_append, sameEnd]

/-- Lists are cut at the same place when a property tells their parts apart. -/
theorem append_inj_of_forall {α : Type} {p : α → Prop} [DecidablePred p]
    {first rest other otherRest : List α} (holds : ∀ x ∈ first, p x) (fails : ∀ x ∈ rest, ¬p x)
    (otherHolds : ∀ x ∈ other, p x) (otherFails : ∀ x ∈ otherRest, ¬p x)
    (same : first ++ rest = other ++ otherRest) : first = other ∧ rest = otherRest := by
  have kept {first rest : List α} (holds : ∀ x ∈ first, p x) (fails : ∀ x ∈ rest, ¬p x) :
      (first ++ rest).filter (fun x => decide (p x)) = first := by
    rw [List.filter_append, List.filter_eq_self.mpr (by simpa using holds),
      List.filter_eq_nil_iff.mpr (by simpa using fails), List.append_nil]
  have parts : first = other := by
    rw [← kept holds fails, same, kept otherHolds otherFails]
  constructor
  · exact parts
  · rw [parts] at same
    exact List.append_cancel_left same

/-- The tokens of a line tell by their line that they are not those of the text behind. -/
theorem line_of_mem_places {lines : Nat} {text : List Char} (nulFree : '\x00' ∉ text)
    {place : TokenType × String × Nat × Nat}
    (isPlace : place ∈ (tokensFrom lines text).map Token.place) :
    ∃ more ≤ text.count '\n', place.2.2.1 = (1 + lines + more) % 2 ^ 32 := by
  rcases List.mem_map.mp isPlace with ⟨token, isToken, rfl⟩
  exact line_of_mem_tokensFrom nulFree isToken

theorem places_newline {lines : Nat} {line rest other otherRest : List Char}
    (nulFree : '\x00' ∉ line) (otherNulFree : '\x00' ∉ other) (restNulFree : '\x00' ∉ rest)
    (otherRestNulFree : '\x00' ∉ otherRest) (oneLine : '\n' ∉ line) (otherLine : '\n' ∉ other)
    (short : rest.length + 1 < 2 ^ 32) (otherShort : otherRest.length + 1 < 2 ^ 32)
    (same : (tokensFrom lines line ++ tokensFrom (lines + 1) rest).map Token.place =
      (tokensFrom lines other ++ tokensFrom (lines + 1) otherRest).map Token.place) :
    (tokensFrom lines line).map Token.place = (tokensFrom lines other).map Token.place ∧
      (tokensFrom (lines + 1) rest).map Token.place =
        (tokensFrom (lines + 1) otherRest).map Token.place := by
  have here {text : List Char} (nulFree : '\x00' ∉ text) (oneLine : '\n' ∉ text) :
      ∀ place ∈ (tokensFrom lines text).map Token.place,
        place.2.2.1 = (1 + lines) % 2 ^ 32 := by
    intro place isPlace
    rcases line_of_mem_places nulFree isPlace with ⟨more, bound, line⟩
    rw [List.count_eq_zero.mpr oneLine] at bound
    rw [line, Nat.le_zero.mp bound, Nat.add_zero]
  have later {text : List Char} (nulFree : '\x00' ∉ text) (short : text.length + 1 < 2 ^ 32) :
      ∀ place ∈ (tokensFrom (lines + 1) text).map Token.place,
        ¬place.2.2.1 = (1 + lines) % 2 ^ 32 := by
    intro place isPlace
    rcases line_of_mem_places nulFree isPlace with ⟨more, bound, line⟩
    have count := List.count_le_length (a := '\n') (l := text)
    rw [line]
    omega
  rw [List.map_append, List.map_append] at same
  exact append_inj_of_forall (here nulFree oneLine) (later restNulFree short)
    (here otherNulFree otherLine) (later otherRestNulFree otherShort) same

/-- A source whose tokens and end keep their places is tidy. -/
theorem tidy_of_places {source : List Char} (nulFree : '\x00' ∉ source) {lines : Nat}
    (short : source.length < 2 ^ 32)
    (same : (tokensFrom lines (preprocess source)).map Token.place =
      (tokensFrom lines (blankComments source)).map Token.place)
    (sameEnd : colBehind (preprocess source) % 2 ^ 32 =
      colBehind (blankComments source) % 2 ^ 32) : Tidy source := by
  induction source using line_induction generalizing lines with
  | last line oneLine =>
      rw [tidy_line oneLine]
      have blankedLength := blankComments_length oneLine
      have keptLength := length_keptOf_le line
      have shorter := length_removeCarriageReturn_le line
      rw [preprocess_line oneLine nulFree,
        colBehind_line (fun isKept => oneLine (keptOf_subset line isKept)),
        colBehind_line (newline_not_mem_blankComments oneLine)] at sameEnd
      have noReturn : '\r' ∉ line := noReturn_of_length_eq (by omega)
      constructor
      · exact noReturn
      · rcases codeOf_spec line with ⟨comment, split, -⟩
        rw [keptOf, removeCarriageReturn_eq_self noReturn] at sameEnd keptLength
        have lengths := congrArg List.length split
        rw [List.length_append] at lengths
        have nothing : comment = [] := List.length_eq_zero_iff.mp (by omega)
        rw [nothing, List.append_nil] at split
        exact split.symm
  | more line rest oneLine inductionHypothesis =>
      rw [tidy_newline oneLine]
      have lineNulFree : '\x00' ∉ line := fun inLine =>
        nulFree (List.mem_append_left _ inLine)
      have restNulFree : '\x00' ∉ rest := fun inRest =>
        nulFree (List.mem_append_right _ (List.mem_cons_of_mem _ inRest))
      rw [List.length_append, List.length_cons] at short
      rw [tokensFrom_preprocess_newline lines oneLine nulFree,
        tokensFrom_blankComments_newline lines oneLine nulFree] at same
      have keptShort := (preprocess_sublist rest).length_le
      have blankedLength : (blankComments rest).length = rest.length :=
        length_blankCommentsFrom _ _
      rcases places_newline (fun isKept => lineNulFree (keptOf_subset line isKept))
        (nulFree_blankComments oneLine lineNulFree) (nulFree_preprocess restNulFree)
        (nulFree_blankedSource restNulFree) (fun isKept => oneLine (keptOf_subset line isKept))
        (newline_not_mem_blankComments oneLine) (by omega) (by omega) same with
        ⟨sameLine, sameRest⟩
      rw [preprocess_newline oneLine nulFree, blankComments_newline oneLine,
        colBehind_newline_append, colBehind_newline_append] at sameEnd
      constructor
      · exact tidyLine_of_places oneLine lineNulFree (by omega) sameLine
      · exact inductionHypothesis restNulFree (by omega) sameRest sameEnd

/-- The preprocessor keeps the tokens of a tidy source and their places, and no other
source keeps them whose characters can be counted in 32 bits. -/
theorem preservesTokens_iff {source : List Char} (nulFree : '\x00' ∉ source)
    (filename : String) :
    (Tidy source → PreservesTokens source filename) ∧
      (source.length < 2 ^ 32 → PreservesTokens source filename → Tidy source) := by
  unfold PreservesTokens
  rw [tokens_tokenize_eq (nulFree_preprocess nulFree),
    tokens_tokenize_eq (nulFree_blankedSource nulFree)]
  constructor
  · intro tidy
    rcases tidy.keeps nulFree 0 with ⟨sameTokens, sameEnd⟩
    rw [sameTokens, spanBehind, spanBehind, lineBehind_preprocess nulFree, sameEnd]
  · intro short same
    rw [List.map_append, List.map_append] at same
    rcases List.append_inj' same rfl with ⟨sameTokens, sameEnd⟩
    have sameColumn := (Prod.mk.inj (Prod.mk.inj (Prod.mk.inj
      (List.singleton_injective sameEnd)).2).2).2
    exact tidy_of_places nulFree short sameTokens sameColumn

theorem preservesTokens_crlf :
    PreservesTokens "fn main() i32 \x7b\r\n  return 0; // zero\r\n\x7d\r\n".toList "main.slfr" :=
  (preservesTokens_iff (by decide) "main.slfr").1 (by
    constructor <;> decide)

/-- A carriage return alone separates two tokens that the preprocessor joins. -/
theorem carriageReturn_joins :
    ¬PreservesTokens "fn\rmain() i32 { return 0; }".toList "main.slfr" := by
  unfold PreservesTokens
  decide

end Sulfur
