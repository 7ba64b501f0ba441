import Sulfur.Frontend.Partition

/-!
# Lines

No lexeme has white space, so what the lexer reads before a white space does not depend
on what stands behind it.  A text is read line by line.
-/

namespace Sulfur

/-! ## Lexemes before white space -/

theorem isStray_not_isSpace {c : Char} (stray : isStray c) : isSpace c = false := by
  simp only [isStray, Bool.and_eq_true, Bool.not_eq_true'] at stray
  exact stray.1.1.2

/-- A run ends before white space. -/
theorem takeWhile_append_space {p : Char → Bool} (noSpace : ∀ c, p c → isSpace c = false)
    (text : List Char) {rest : List Char} (space : ∀ c ∈ rest.head?, isSpace c) :
    (text ++ rest).takeWhile p = text.takeWhile p := by
  induction text with
  | nil =>
      cases rest with
      | nil => rfl
      | cons c rest =>
          have isSpace : Sulfur.isSpace c := space c rfl
          have stops : p c = false := by
            rw [Bool.eq_false_iff]
            intro holds
            rw [noSpace c holds] at isSpace
            cases isSpace
          rw [List.nil_append, List.takeWhile_cons_of_neg (by simp [stops]), List.takeWhile_nil]
  | cons c text inductionHypothesis =>
      rw [List.cons_append, List.takeWhile_cons, List.takeWhile_cons, inductionHypothesis]

theorem prefix_append_space {spelling : List Char}
    (noSpace : ∀ c ∈ spelling, isSpace c = false) (text : List Char) {rest : List Char}
    (space : ∀ c ∈ rest.head?, isSpace c) :
    spelling <+: text ++ rest ↔ spelling <+: text := by
  constructor
  · intro isPrefix
    induction text generalizing spelling with
    | nil =>
        cases spelling with
        | nil => exact List.nil_prefix
        | cons c spelling =>
            rcases isPrefix with ⟨others, same⟩
            rw [List.nil_append] at same
            have isSpace := space c (by rw [← same]; rfl)
            rw [noSpace c List.mem_cons_self] at isSpace
            cases isSpace
    | cons c text inductionHypothesis =>
        cases spelling with
        | nil => exact List.nil_prefix
        | cons first spelling =>
            rw [List.cons_append, List.cons_prefix_cons] at isPrefix
            rw [List.cons_prefix_cons]
            exact ⟨isPrefix.1, inductionHypothesis
              (fun c inSpelling => noSpace c (List.mem_cons_of_mem _ inSpelling)) isPrefix.2⟩
  · intro isPrefix
    exact isPrefix.trans (List.prefix_append _ _)

/-- A symbol ends before white space. -/
theorem findSymbol_append_space (text : List Char) {rest : List Char}
    (space : ∀ c ∈ rest.head?, isSpace c) : findSymbol (text ++ rest) = findSymbol text := by
  unfold findSymbol
  apply List.find?_congr
  intro spelling isSymbol
  rw [Bool.eq_iff_iff, List.isPrefixOf_iff_prefix, List.isPrefixOf_iff_prefix]
  apply prefix_append_space _ _ space
  intro c inSpelling
  exact (isSymbolChar_of_mem spelling isSymbol c inSpelling).2.2.1

theorem lexemeAt_append_space {text : List Char} (nonempty : text ≠ []) {rest : List Char}
    (space : ∀ c ∈ rest.head?, isSpace c) : lexemeAt (text ++ rest) = lexemeAt text := by
  have head : (text ++ rest).headD '\x00' = text.headD '\x00' := by
    cases text with
    | nil => exact absurd rfl nonempty
    | cons c text => rfl
  unfold lexemeAt
  rw [head, findSymbol_append_space _ space,
    takeWhile_append_space (fun _ => isIdentChar_not_isSpace) _ space,
    takeWhile_append_space (fun _ => isStray_not_isSpace) _ space]

theorem ReadsLexeme.nonempty {before text rest : List Char} {token : Token}
    (isRead : ReadsLexeme before text rest token) : text ≠ [] := by
  rw [← isRead.lexeme]
  exact (lexemeAt_spec isRead.notEnd isRead.notSpace).2.1

theorem ReadsLexeme.append_space {before text rest more : List Char} {token : Token}
    (isRead : ReadsLexeme before text rest token) (space : ∀ c ∈ more.head?, isSpace c) :
    ReadsLexeme before text (rest ++ more) token := by
  have nonempty : text ++ rest ≠ [] := List.append_ne_nil_of_left_ne_nil isRead.nonempty _
  have head : (text ++ rest ++ more).headD '\x00' = (text ++ rest).headD '\x00' := by
    cases whole : text ++ rest with
    | nil => exact absurd whole nonempty
    | cons c others => rfl
  constructor
  · rw [← List.append_assoc, head]
    exact isRead.notEnd
  · rw [← List.append_assoc, head]
    exact isRead.notSpace
  · rw [← List.append_assoc, lexemeAt_append_space nonempty space]
    exact isRead.lexeme
  · exact isRead.token

/-! ## Factors -/

/-- Positions move alike over one text. -/
theorem spanBehind_append {before other : List Char} (same : spanBehind before = spanBehind other)
    (text : List Char) : spanBehind (before ++ text) = spanBehind (other ++ text) := by
  induction text using List.reverseRecOn with
  | nil => simpa using same
  | append_singleton text c inductionHypothesis =>
      rw [← List.append_assoc, ← List.append_assoc]
      simp only [spanBehind, Span.mk.injEq, and_true] at inductionHypothesis ⊢
      by_cases newline : c = '\n'
      · rw [newline, lineBehind_newline, lineBehind_newline, colBehind_newline,
          colBehind_newline, Nat.add_mod, inductionHypothesis.1, ← Nat.add_mod]
        exact ⟨rfl, rfl⟩
      · have oneLine : '\n' ∉ [c] := by simpa using Ne.symm newline
        rw [lineBehind_append oneLine, lineBehind_append oneLine, colBehind_append oneLine,
          colBehind_append oneLine, Nat.add_mod (colBehind _), inductionHypothesis.2,
          ← Nat.add_mod]
        exact ⟨inductionHypothesis.1, rfl⟩

namespace Factors

variable {α : Type} {reads : List Char → List Char → List Char → α → Prop}
  {before text rest : List Char} {values : List α} {tokens others : List Token}

/-- A text and the text behind it, which starts with white space, are read one after the
other. -/
theorem append (factors : Factors ReadsLexeme before text tokens)
    (space : ∀ c ∈ rest.head?, isSpace c)
    (behind : Factors ReadsLexeme (before ++ text) rest others) :
    Factors ReadsLexeme before (text ++ rest) (tokens ++ others) := by
  induction factors with
  | nil => simpa using behind
  | space isSpace _ inductionHypothesis =>
      apply Factors.space isSpace
      apply inductionHypothesis
      simpa using behind
  | lexeme isRead _ inductionHypothesis =>
      rw [List.append_assoc]
      apply Factors.lexeme (isRead.append_space space)
      apply inductionHypothesis
      simpa using behind

/-- A text has one list of tokens. -/
theorem unique (factors : Factors ReadsLexeme before text tokens)
    (again : Factors ReadsLexeme before text others) : tokens = others :=
  (factors.eq_lexemes le_rfl).1.trans (again.eq_lexemes le_rfl).1.symm

/-- Every text without a zero byte has tokens. -/
theorem exists_tokens (before : List Char) {text : List Char} (nulFree : '\x00' ∉ text) :
    ∃ tokens, Factors ReadsLexeme before text tokens := by
  induction size : text.length using Nat.strong_induction_on generalizing before text with
  | _ size inductionHypothesis =>
      cases text with
      | nil => exact ⟨[], .nil⟩
      | cons c rest =>
          rw [List.mem_cons, not_or] at nulFree
          by_cases space : isSpace c
          · rcases inductionHypothesis rest.length (by simp [← size]) (before ++ [c])
              nulFree.2 rfl with ⟨tokens, factors⟩
            exact ⟨tokens, .space space factors⟩
          · have notEnd : (c :: rest).headD '\x00' ≠ '\x00' := fun same => nulFree.1 same.symm
            have notSpace : isSpace ((c :: rest).headD '\x00') = false := by simpa using space
            rcases lexemeAt_spec notEnd notSpace with ⟨⟨behind, whole⟩, nonempty, -⟩
            have positive := List.length_pos_iff.mpr nonempty
            have lengths := congrArg List.length whole
            rw [List.length_append] at lengths
            have behindNulFree : '\x00' ∉ behind := by
              intro inBehind
              have inText : '\x00' ∈ c :: rest := by
                rw [← whole]
                exact List.mem_append_right _ inBehind
              rcases List.mem_cons.mp inText with same | inRest
              · exact nulFree.1 same
              · exact nulFree.2 inRest
            rcases inductionHypothesis behind.length (by omega)
              (before ++ lexemeAt (c :: rest)) behindNulFree rfl with ⟨tokens, factors⟩
            have isRead : ReadsLexeme before (lexemeAt (c :: rest)) behind
                (tokenOf (spanBehind before) (lexemeAt (c :: rest))) := by
              constructor
              · rw [whole]
                exact notEnd
              · rw [whole]
                exact notSpace
              · rw [whole]
              · rfl
            have read := Factors.lexeme isRead factors
            rw [whole] at read
            exact ⟨_, read⟩

/-- The tokens of a text depend on the position of the text only. -/
theorem congr {other : List Char} (same : spanBehind before = spanBehind other)
    (factors : Factors ReadsLexeme before text tokens) : Factors ReadsLexeme other text tokens := by
  induction factors generalizing other with
  | nil => exact .nil
  | space space _ inductionHypothesis =>
      exact .space space (inductionHypothesis (spanBehind_append same _))
  | lexeme isRead _ inductionHypothesis =>
      apply Factors.lexeme _ (inductionHypothesis (spanBehind_append same _))
      exact ⟨isRead.notEnd, isRead.notSpace, isRead.lexeme, by rw [isRead.token, same]⟩

/-- A lexeme is in the text. -/
theorem within (factors : Factors reads before text values) :
    Factors (fun behind lexeme rest value => reads behind lexeme rest value ∧
      ∃ first, behind = before ++ first ∧ text = first ++ lexeme ++ rest)
      before text values := by
  induction factors with
  | nil => exact .nil
  | @space before rest c values space _ inductionHypothesis =>
      apply Factors.space space
      apply inductionHypothesis.mono
      rintro behind lexeme after value ⟨behindRead, first, rfl, rfl⟩
      exact ⟨behindRead, c :: first, by simp, by simp⟩
  | @lexeme before text rest value values isRead _ inductionHypothesis =>
      apply Factors.lexeme ⟨isRead, [], by simp, by simp⟩
      apply inductionHypothesis.mono
      rintro behind lexeme after value ⟨behindRead, first, rfl, rfl⟩
      exact ⟨behindRead, text ++ first, by simp, by simp⟩

/-- Nothing is read from white space. -/
theorem eq_nil_of_spaces (factors : Factors ReadsLexeme before text tokens)
    (spaces : ∀ c ∈ text, isSpace c) : tokens = [] := by
  induction factors with
  | nil => rfl
  | space _ _ inductionHypothesis =>
      exact inductionHypothesis fun c inRest => spaces c (List.mem_cons_of_mem _ inRest)
  | @lexeme before text rest token tokens isRead =>
      have notSpace := isRead.notSpace
      cases whole : text with
      | nil => exact absurd whole isRead.nonempty
      | cons c others =>
          rw [whole, List.cons_append, List.headD_cons] at notSpace
          have space := spaces c (by rw [whole]; simp)
          rw [notSpace] at space
          cases space

theorem of_spaces (before : List Char) (spaces : ∀ c ∈ text, isSpace c) :
    Factors ReadsLexeme before text [] := by
  induction text generalizing before with
  | nil => exact .nil
  | cons c text inductionHypothesis =>
      rw [List.forall_mem_cons] at spaces
      exact .space spaces.1 (inductionHypothesis _ spaces.2)

/-- White space behind a text is not read. -/
theorem append_spaces (factors : Factors ReadsLexeme before text tokens)
    (spaces : ∀ c ∈ rest, isSpace c) : Factors ReadsLexeme before (text ++ rest) tokens := by
  have read := factors.append
    (fun c isHead => spaces c (List.mem_of_mem_head? isHead)) (of_spaces (before ++ text) spaces)
  rwa [List.append_nil] at read

end Factors

theorem ReadsLexeme.notSpace_of_mem {before text rest : List Char} {token : Token}
    (isRead : ReadsLexeme before text rest token) {c : Char} (inText : c ∈ text) :
    isSpace c = false := by
  rw [← isRead.lexeme] at inText
  exact ((lexemeAt_spec isRead.notEnd isRead.notSpace).2.2 c inText).1

/-- The last token of a text is read from its last characters. -/
theorem Factors.exists_last {reads : List Char → List Char → List Char → Token → Prop}
    (lexical : ∀ before text rest token, reads before text rest token →
      ReadsLexeme before text rest token) {before text rest : List Char} {tokens : List Token}
    (factors : Factors reads before (text ++ rest) tokens) {last : Char}
    (isLast : last ∈ text.getLast?) (notSpace : isSpace last = false)
    (spaces : ∀ c ∈ rest, isSpace c) :
    ∃ others token first lexeme, tokens = others ++ [token] ∧ text = first ++ lexeme ∧
      reads (before ++ first) lexeme rest token := by
  generalize whole : text ++ rest = behind at factors
  induction factors generalizing text with
  | nil =>
      rw [(List.append_eq_nil_iff.mp whole).1] at isLast
      cases isLast
  | @space before behind c tokens space _ inductionHypothesis =>
      cases text with
      | nil => cases isLast
      | cons first text =>
          rw [List.cons_append, List.cons.injEq] at whole
          have nonempty : text ≠ [] := by
            rintro rfl
            rw [List.getLast?_singleton, Option.mem_some_iff] at isLast
            rw [← isLast, whole.1, space] at notSpace
            cases notSpace
          have isLast : last ∈ text.getLast? := by
            rwa [List.getLast?_cons_of_ne_nil nonempty] at isLast
          rcases inductionHypothesis isLast whole.2 with
            ⟨others, token, before, lexeme, tokensEqual, rfl, isRead⟩
          exact ⟨others, token, first :: before, lexeme, tokensEqual, rfl,
            by simpa [whole.1] using isRead⟩
  | @lexeme before lexeme behind token tokens isRead factors inductionHypothesis =>
      have nothing (spaces : ∀ c ∈ behind, isSpace c) : tokens = [] :=
        (factors.mono lexical).eq_nil_of_spaces spaces
      rcases List.append_eq_append_iff.mp whole with
        ⟨more, same, behindEqual⟩ | ⟨more, rfl, behindEqual⟩
      · have none : more = [] := by
          cases more with
          | nil => rfl
          | cons c more =>
              have space := spaces c (by rw [behindEqual]; simp)
              rw [(lexical _ _ _ _ isRead).notSpace_of_mem (by rw [same]; simp)] at space
              cases space
        rw [none, List.append_nil] at same
        rw [none, List.nil_append] at behindEqual
        exact ⟨[], token, [], text, by rw [nothing (by rwa [← behindEqual])]; rfl, rfl,
          by simpa [same, behindEqual] using isRead⟩
      · cases more with
        | nil =>
            exact ⟨[], token, [], lexeme, by rw [nothing (by rwa [behindEqual])]; rfl, by simp,
              by simpa [behindEqual] using isRead⟩
        | cons c more =>
            have isLast : last ∈ (c :: more).getLast? := by
              rwa [List.getLast?_append_of_ne_nil _ (List.cons_ne_nil c more)] at isLast
            rcases inductionHypothesis isLast behindEqual.symm with
              ⟨others, lastToken, first, lastLexeme, tokensEqual, moreEqual, lastRead⟩
            exact ⟨token :: others, lastToken, lexeme ++ first, lastLexeme,
              by rw [tokensEqual]; rfl, by rw [moreEqual, List.append_assoc],
              by simpa using lastRead⟩

/-! ## Neighbours -/

/-- No lexeme ends between the characters. -/
def Joins (first second : Char) : Prop :=
  (isIdentChar first ∧ isIdentChar second) ∨ (isStray first ∧ isStray second)

theorem isStray_not_isIdentChar {c : Char} (stray : isStray c) : isIdentChar c = false := by
  simp only [isStray, Bool.and_eq_true, Bool.not_eq_true'] at stray
  exact stray.1.2

/-- A lexeme is a run of identifier characters, a run of stray characters or a symbol. -/
theorem ReadsLexeme.kind {before text rest : List Char} {token : Token}
    (isRead : ReadsLexeme before text rest token) :
    IsRun isIdentChar text rest ∨ IsRun isStray text rest ∨
      ((∀ c ∈ text, isIdentChar c = false ∧ isStray c = false) ∧
        token.type ∈ kSymbols.map Prod.fst) := by
  have lexeme := isRead.lexeme
  unfold lexemeAt at lexeme
  split at lexeme
  · exact Or.inl (isRun_of_takeWhile lexeme)
  · apply Or.inr
    split at lexeme
    · rename_i symbol found
      have isSymbol := (findSymbol_longest found).1
      have chars := isSymbolChar_of_mem symbol isSymbol
      rw [lexeme] at chars
      have head : isIdentChar (text.headD '\x00') = false := by
        cases whole : text with
        | nil => exact absurd whole isRead.nonempty
        | cons c others => exact (chars c (by rw [whole]; exact List.mem_cons_self)).2.1
      unfold isIdentChar at head
      rw [Bool.or_eq_false_iff] at head
      apply Or.inr
      constructor
      · intro c inText
        rcases chars c inText with ⟨isChar, notIdent, -, -⟩
        exact ⟨notIdent, by simp [isStray, isChar]⟩
      · rw [isRead.token, tokenOf, head.1, head.2, ← lexeme,
          (find?_text_of_mem symbol isSymbol).1]
        exact List.mem_map_of_mem isSymbol
    · exact Or.inl (isRun_of_takeWhile lexeme)

/-- What starts behind a lexeme does not belong to it. -/
theorem ReadsLexeme.not_joins {before text rest : List Char} {token : Token}
    (isRead : ReadsLexeme before text rest token) {last next : Char}
    (isLast : last ∈ text.getLast?) (isNext : next ∈ rest.head?) : ¬Joins last next := by
  have inText := List.mem_of_mem_getLast? isLast
  rintro (⟨lastIdent, nextIdent⟩ | ⟨lastStray, nextStray⟩)
  · rcases isRead.kind with run | run | ⟨symbol, -⟩
    · rw [run.stops next isNext] at nextIdent
      cases nextIdent
    · rw [isStray_not_isIdentChar (run.inside last inText)] at lastIdent
      cases lastIdent
    · rw [(symbol last inText).1] at lastIdent
      cases lastIdent
  · rcases isRead.kind with run | run | ⟨symbol, -⟩
    · have isIdent := run.inside last inText
      rw [isStray_not_isIdentChar lastStray] at isIdent
      cases isIdent
    · rw [run.stops next isNext] at nextStray
      cases nextStray
    · rw [(symbol last inText).2] at lastStray
      cases lastStray

/-- The characters before the text and at its start belong to two lexemes. -/
def Apart (before text : List Char) : Prop :=
  ∀ last ∈ before.getLast?, ∀ next ∈ text.head?, ¬Joins last next

/-- No lexeme of a text starts behind a character that it could have. -/
theorem Factors.apart {before text : List Char} {tokens : List Token}
    (factors : Factors ReadsLexeme before text tokens) (start : Apart before text) :
    Factors (fun before text rest token => ReadsLexeme before text rest token ∧ Apart before text)
      before text tokens := by
  induction factors with
  | nil => exact .nil
  | @space before rest c tokens space _ inductionHypothesis =>
      apply Factors.space space
      apply inductionHypothesis
      intro last isLast next _ joins
      rw [List.getLast?_concat, Option.mem_some_iff] at isLast
      rw [← isLast] at joins
      rcases joins with ⟨ident, -⟩ | ⟨stray, -⟩
      · rw [isIdentChar_not_isSpace ident] at space
        cases space
      · rw [isStray_not_isSpace stray] at space
        cases space
  | @lexeme before text rest token tokens isRead _ inductionHypothesis =>
      apply Factors.lexeme
      · constructor
        · exact isRead
        · intro last isLast next isNext
          apply start last isLast next
          rw [List.head?_append, isNext]
          rfl
      · apply inductionHypothesis
        intro last isLast next isNext
        rw [List.getLast?_append_of_ne_nil _ isRead.nonempty] at isLast
        exact isRead.not_joins isLast isNext

/-- A symbol is written in one way. -/
theorem kSymbols_injective : ∀ first ∈ kSymbols, ∀ second ∈ kSymbols,
    first.1 = second.1 → first.2 = second.2 := by
  decide

/-- Tokens of one symbol are read from the same characters. -/
theorem ReadsLexeme.text_eq_of_symbol {before text rest other otherText otherRest : List Char}
    {token otherToken : Token} (isRead : ReadsLexeme before text rest token)
    (otherRead : ReadsLexeme other otherText otherRest otherToken)
    (isSymbol : token.type ∈ kSymbols.map Prod.fst) (sameType : token.type = otherToken.type) :
    text = otherText := by
  have first := (isRead.longestMatch.symbol isSymbol).1
  have second := (otherRead.longestMatch.symbol (sameType ▸ isSymbol)).1
  exact String.ofList_injective (kSymbols_injective _ first _ second sameType)

/-! ## Tokens of lines -/

/-- The tokens of a text that starts behind so many lines. -/
def tokensFrom (lines : Nat) (text : List Char) : List Token :=
  (lexemesLoop text.length (List.replicate lines '\n') text).map Prod.fst

theorem factors_iff_tokensFrom {lines : Nat} {text : List Char} (nulFree : '\x00' ∉ text)
    {tokens : List Token} :
    Factors ReadsLexeme (List.replicate lines '\n') text tokens ↔
      tokens = tokensFrom lines text := by
  have equal {tokens : List Token}
      (factors : Factors ReadsLexeme (List.replicate lines '\n') text tokens) :
      tokens = tokensFrom lines text := (factors.eq_lexemes le_rfl).1
  constructor
  · exact equal
  · rintro rfl
    rcases Factors.exists_tokens (List.replicate lines '\n') nulFree with ⟨tokens, factors⟩
    rwa [← equal factors]

theorem tokens_tokenize_eq {text : List Char} (nulFree : '\x00' ∉ text) (filename : String) :
    (tokenize text filename).tokens =
      tokensFrom 0 text ++ [{ type := .eof, span := spanBehind text }] :=
  (tokens_tokenize nulFree filename).1

theorem spanBehind_newline {before : List Char} {lines : Nat} (count : before.count '\n' = lines) :
    spanBehind (before ++ ['\n']) = spanBehind (List.replicate (lines + 1) '\n') := by
  rw [List.replicate_succ', spanBehind, spanBehind, lineBehind_newline, lineBehind_newline,
    colBehind_newline, colBehind_newline, lineBehind, lineBehind, count, List.count_replicate_self]

/-- The lexer reads a text line by line. -/
theorem tokensFrom_newline (lines : Nat) {line rest : List Char} (oneLine : '\n' ∉ line)
    (nulFree : '\x00' ∉ line ++ '\n' :: rest) :
    tokensFrom lines (line ++ '\n' :: rest) =
      tokensFrom lines line ++ tokensFrom (lines + 1) rest := by
  have lineNulFree : '\x00' ∉ line := fun inLine => nulFree (List.mem_append_left _ inLine)
  have restNulFree : '\x00' ∉ rest := fun inRest =>
    nulFree (List.mem_append_right _ (List.mem_cons_of_mem _ inRest))
  have count : (List.replicate lines '\n' ++ line).count '\n' = lines := by
    rw [List.count_append, List.count_replicate_self, List.count_eq_zero.mpr oneLine,
      Nat.add_zero]
  apply Eq.symm
  rw [← factors_iff_tokensFrom nulFree]
  apply Factors.append ((factors_iff_tokensFrom lineNulFree).mpr rfl)
  · rintro c ⟨⟩
    rfl
  · apply Factors.space rfl
    exact ((factors_iff_tokensFrom restNulFree).mpr rfl).congr (spanBehind_newline count).symm

/-- A text is a last line, or a line before a text. -/
theorem line_induction {motive : List Char → Prop}
    (last : ∀ line, '\n' ∉ line → motive line)
    (more : ∀ line rest, '\n' ∉ line → motive rest → motive (line ++ '\n' :: rest))
    (text : List Char) : motive text := by
  induction size : text.length using Nat.strong_induction_on generalizing text with
  | _ size inductionHypothesis =>
      by_cases newline : '\n' ∈ text
      · rcases List.eq_append_cons_of_mem newline with ⟨line, rest, rfl, oneLine⟩
        apply more line rest oneLine
        exact inductionHypothesis rest.length (by simp [← size]; omega) rest rfl
      · exact last text newline

/-- The lines of the tokens are those of the text. -/
theorem line_of_mem_tokensFrom {lines : Nat} {text : List Char} (nulFree : '\x00' ∉ text)
    {token : Token} (inTokens : token ∈ tokensFrom lines text) :
    ∃ more ≤ text.count '\n', token.span.line = (1 + lines + more) % 2 ^ 32 := by
  have whole : Factors ReadsLexeme (List.replicate lines '\n') text (tokensFrom lines text) :=
    (factors_iff_tokensFrom nulFree).mpr rfl
  have factors := whole.within
  apply factors.forall_values _ token inTokens
  rintro _ lexeme rest value ⟨isRead, first, rfl, whole⟩
  refine ⟨first.count '\n', ?_, ?_⟩
  · rw [whole, List.append_assoc, List.count_append]
    exact Nat.le_add_right _ _
  · rw [isRead.longestMatch.line, List.count_append, List.count_replicate_self, Nat.add_assoc]

end Sulfur
