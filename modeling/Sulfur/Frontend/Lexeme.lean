import Sulfur.Frontend.Lexer
import Mathlib.Data.List.TakeWhile
import Mathlib.Tactic

/-!
# Lexemes

What the lexer promises of the tokens that it emits: the text of a token fits its
type, and the end of file is the last token and no other one.
-/

namespace Sulfur

/-- The text of an identifier. -/
structure IsIdentText (text : List Char) : Prop where
  start : ∃ c ∈ text.head?, isIdentStart c
  chars : ∀ c ∈ text, isIdentChar c

theorem isIdentStart_not_isDigit {c : Char} (start : isIdentStart c) : ¬isDigit c := by
  intro digit
  simp only [isDigit, ge_iff_le, Bool.and_eq_true, decide_eq_true_eq] at digit
  simp only [isIdentStart, ge_iff_le, Bool.or_eq_true, Bool.and_eq_true,
    decide_eq_true_eq] at start
  rcases start with (⟨lower, -⟩ | ⟨upper, -⟩) | rfl
  · exact absurd (Char.le_trans lower digit.2) (by decide)
  · exact absurd (Char.le_trans upper digit.2) (by decide)
  · exact absurd digit.2 (by decide)

/-- The text of a token is one that its type admits. -/
def Token.Lexed (token : Token) : Prop :=
  match token.type with
  | .undefined => True
  | .identifier =>
      IsIdentText token.value.toList ∧ ∀ spelling ∈ kKeywords, token.value ≠ spelling.2
  | .integer => ∃ value < 2 ^ 64, token.value = toString value
  | .eof => token.value = ""
  | type => (type, token.value) ∈ kSymbols ++ kKeywords

theorem readDigits_value_lt (base : Nat) (text : List Char) (run : DigitRun)
    (small : run.value < 2 ^ 64) : (readDigits base text run).value < 2 ^ 64 := by
  induction text generalizing run with
  | nil => exact small
  | cons c rest inductionHypothesis =>
      unfold readDigits
      split
      · exact small
      · split
        · exact inductionHypothesis _ small
        · split
          · exact small
          · exact inductionHypothesis _ (Nat.mod_lt _ (by norm_num))

theorem readNumber_lexed (lx : Lexer) :
    (readNumber lx).1.Lexed ∧ (readNumber lx).1.type ≠ .eof := by
  unfold readNumber
  dsimp only
  generalize (if numberBase lx ≠ 10 then lx.advance 2 else lx) = start
  split
  · exact ⟨trivial, nofun⟩
  · exact ⟨⟨_, readDigits_value_lt _ _ _ (by norm_num), rfl⟩, nofun⟩

/-- A word that is no keyword is an identifier. -/
theorem resolveKeyword_cases (value : String) :
    (resolveKeyword value, value) ∈ kKeywords ∨
      resolveKeyword value = .identifier ∧ ∀ spelling ∈ kKeywords, value ≠ spelling.2 := by
  unfold resolveKeyword
  split
  · rename_i spelling found
    have same := List.find?_some found
    rw [decide_eq_true_eq] at same
    rw [same]
    exact .inl (List.mem_of_find?_eq_some found)
  · rename_i none
    exact .inr ⟨rfl, by simpa using none⟩

/-- The types that a table of spellings lists are none of the types with a text of
their own. -/
theorem Token.lexed_of_mem {token : Token}
    (listed : (token.type, token.value) ∈ kSymbols ++ kKeywords) :
    token.Lexed ∧ token.type ≠ .eof := by
  have types : token.type ∈ (kSymbols ++ kKeywords).map Prod.fst :=
    List.mem_map_of_mem listed
  unfold Token.Lexed
  generalize token.type = type at *
  cases type <;> first
    | exact ⟨listed, nofun⟩
    | exact absurd types (by decide)

theorem readIdentifier_lexed {lx : Lexer} (starts : isIdentStart lx.current) :
    (readIdentifier lx).1.Lexed ∧ (readIdentifier lx).1.type ≠ .eof := by
  unfold readIdentifier
  dsimp only
  generalize keptText : (lx.rest.takeWhile isIdentChar).take (maxTokenValueSize - 1) = kept
  rcases resolveKeyword_cases (String.ofList kept) with isKeyword | ⟨isName, notKeyword⟩
  · exact Token.lexed_of_mem (List.mem_append_right _ isKeyword)
  · have text : IsIdentText kept := by
      constructor
      · rcases lx with ⟨rest, line, col⟩
        cases rest with
        | nil => cases starts
        | cons c rest =>
            have isChar : isIdentChar c := by
              unfold isIdentChar
              rw [Bool.or_eq_true]
              exact .inl starts
            refine ⟨c, ?_, starts⟩
            simp [← keptText, isChar, maxTokenValueSize]
      · intro c isKept
        rw [← keptText] at isKept
        exact List.mem_takeWhile_imp (List.mem_of_mem_take isKept)
    refine ⟨?_, by simp [isName]⟩
    unfold Token.Lexed
    dsimp only
    rw [isName]
    rw [String.toList_ofList]
    exact ⟨text, notKeyword⟩

theorem readSymbol_lexed (lx : Lexer) :
    (readSymbol lx).1.Lexed ∧ (readSymbol lx).1.type ≠ .eof := by
  unfold readSymbol
  split
  · exact ⟨trivial, nofun⟩
  · rename_i symbol found
    exact Token.lexed_of_mem (List.mem_append_left _ (List.mem_of_find?_eq_some found))

theorem lexerEmit_lexed (filename : String) (lx : Lexer) :
    (lexerEmit filename lx).1.Lexed ∧ (lexerEmit filename lx).1.type ≠ .eof := by
  unfold lexerEmit
  dsimp only
  generalize isRead :
    (if isDigit lx.current then readNumber lx
    else if isIdentStart lx.current then readIdentifier lx
    else readSymbol lx) = read
  have lexed : read.1.Lexed ∧ read.1.type ≠ .eof := by
    rw [← isRead]
    split
    · exact readNumber_lexed lx
    · split
      · rename_i starts
        exact readIdentifier_lexed starts
      · exact readSymbol_lexed lx
  split
  · exact ⟨trivial, nofun⟩
  · exact lexed

/-- The tokens of a source text: the end of file after lexemes. -/
theorem tokenizeLoop_lexed (filename : String) (fuel : Nat) (lx : Lexer) :
    ∃ body last, (tokenizeLoop filename fuel lx).tokens = body ++ [last] ∧
      last.type = .eof ∧ last.value = "" ∧
      ∀ token ∈ body, token.Lexed ∧ token.type ≠ .eof := by
  induction fuel generalizing lx with
  | zero => exact ⟨[], _, rfl, rfl, rfl, List.forall_mem_nil _⟩
  | succ fuel inductionHypothesis =>
      unfold tokenizeLoop
      split
      · exact ⟨[], _, rfl, rfl, rfl, List.forall_mem_nil _⟩
      · split
        · exact inductionHypothesis _
        · split
          · exact inductionHypothesis _
          · rcases inductionHypothesis (lexerEmit filename lx).2.1 with
              ⟨body, last, split, isEnd, empty, lexed⟩
            refine ⟨(lexerEmit filename lx).1 :: body, last, ?_, isEnd, empty, ?_⟩
            · dsimp only
              rw [split, List.cons_append]
            · exact List.forall_mem_cons.mpr ⟨lexerEmit_lexed filename lx, lexed⟩

end Sulfur
