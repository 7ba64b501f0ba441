import Sulfur.Frontend.Lexer

/-!
# Numerals

The number that a numeral of the source writes.  The lexer gathers it in an
accumulator of 64 bits, so that an integer token carries the number modulo
`2 ^ 64`.
-/

namespace Sulfur

/-- The digits among some characters; a `_` is none. -/
def digitsOf (base : Nat) (text : List Char) : List Nat :=
  text.filterMap fun c => digitValue c base

/-- The base that the first characters of a numeral name. -/
def writtenBase (text : List Char) : Nat :=
  match text with
  | '0' :: 'x' :: _ | '0' :: 'X' :: _ => 16
  | '0' :: 'b' :: _ | '0' :: 'B' :: _ => 2
  | _ => 10

/-- The number that a numeral writes. -/
def writtenValue (text : List Char) : Nat :=
  let base := writtenBase text
  let body := if base = 10 then text else text.drop 2
  Nat.ofDigits base (digitsOf base body).reverse

@[simp]
theorem digitsOf_nil (base : Nat) : digitsOf base [] = [] := rfl

/-- The first digit has the highest weight. -/
theorem ofDigits_reverse_cons (base digit : Nat) (digits : List Nat) :
    Nat.ofDigits base (digit :: digits).reverse =
      digit * base ^ digits.length + Nat.ofDigits base digits.reverse := by
  rw [List.reverse_cons, Nat.ofDigits_append, Nat.ofDigits_singleton,
    List.length_reverse]
  ring

/-- The digit loop reads a prefix, and its accumulator takes in the digits of the
prefix modulo `2 ^ 64`. -/
theorem readDigits_prefix (base : Nat) (text : List Char) (run : DigitRun)
    (small : run.value < 2 ^ 64) :
    ∃ body rest, text = body ++ rest ∧
      (readDigits base text run).count = run.count + body.length ∧
      (readDigits base text run).value =
        (run.value * base ^ (digitsOf base body).length +
          Nat.ofDigits base (digitsOf base body).reverse) % 2 ^ 64 := by
  have stopped (run : DigitRun) (small : run.value < 2 ^ 64) :
      run.value = (run.value * base ^ (digitsOf base []).length +
        Nat.ofDigits base (digitsOf base []).reverse) % 2 ^ 64 := by
    simpa using (Nat.mod_eq_of_lt small).symm
  induction text generalizing run with
  | nil => exact ⟨[], [], rfl, rfl, stopped run small⟩
  | cons c rest inductionHypothesis =>
      unfold readDigits
      split
      · exact ⟨[], c :: rest, rfl, rfl, stopped run small⟩
      split
      · rename_i underscore
        obtain ⟨body, after, whole, count, value⟩ :=
          inductionHypothesis { run with count := run.count + 1 } small
        refine ⟨c :: body, after, by rw [whole, List.cons_append], ?_, ?_⟩
        · rw [count, List.length_cons, Nat.add_assoc, Nat.add_comm 1]
        · have none : digitsOf base (c :: body) = digitsOf base body := by
            rw [underscore]
            rfl
          rw [value, none]
      split
      · exact ⟨[], c :: rest, rfl, rfl, stopped run small⟩
      · rename_i digit isDigit
        obtain ⟨body, after, whole, count, value⟩ := inductionHypothesis
          { value := (run.value * base + digit) % 2 ^ 64
            hasDigit := true
            count := run.count + 1 } (Nat.mod_lt _ (by norm_num))
        refine ⟨c :: body, after, by rw [whole, List.cons_append], ?_, ?_⟩
        · rw [count, List.length_cons, Nat.add_assoc, Nat.add_comm 1]
        · have some : digitsOf base (c :: body) = digit :: digitsOf base body :=
            List.filterMap_cons_some isDigit
          rw [value, some, ofDigits_reverse_cons, List.length_cons, pow_succ]
          have reduced := ((Nat.mod_modEq (run.value * base + digit) (2 ^ 64)).mul_right
            (base ^ (digitsOf base body).length)).add_right
              (Nat.ofDigits base (digitsOf base body).reverse)
          refine reduced.trans (congrArg (· % 2 ^ 64) ?_)
          ring

/-- A numeral names the base that the lexer selects, once it takes in the
prefix. -/
theorem writtenBase_eq_numberBase {lx : Lexer} {body : List Char} (rest : List Char)
    (whole : lx.rest = body ++ rest)
    (prefixed : numberBase lx ≠ 10 → 2 ≤ body.length) :
    writtenBase body = numberBase lx := by
  match body, prefixed with
  | [], prefixed | [_], prefixed =>
      have decimal : numberBase lx = 10 := by
        by_contra other
        exact absurd (prefixed other) (by simp)
      rw [decimal]
      simp [writtenBase]
  | a :: b :: body, _ =>
      have current : lx.current = a := by simp [Lexer.current, whole]
      by_cases zero : a = '0'
      · have next : lx.next = b := by simp [Lexer.next, current, zero, whole]
        unfold writtenBase numberBase
        rw [current, next, if_pos zero, zero]
        split <;> simp_all
      · unfold writtenBase numberBase
        rw [current, if_neg zero]
        split <;> simp_all

/-- The prefix of a numeral is two characters of the input. -/
theorem exists_prefix_of_numberBase {lx : Lexer} (prefixed : numberBase lx ≠ 10) :
    ∃ a b rest, lx.rest = a :: b :: rest := by
  unfold numberBase Lexer.next Lexer.current at prefixed
  match whole : lx.rest with
  | [] => simp [whole] at prefixed
  | [a] => simp [whole] at prefixed
  | a :: b :: rest => exact ⟨a, b, rest, rfl⟩

/-- An integer token carries the number that the characters of the numeral write,
modulo `2 ^ 64`. -/
theorem readNumber_written {lx stop : Lexer} {token : Token}
    (read : readNumber lx = (token, stop)) (integer : token.type = .integer) :
    ∃ body, lx.rest = body ++ stop.rest ∧
      token.value = toString (writtenValue body % 2 ^ 64) := by
  unfold readNumber at read
  dsimp only at read
  generalize started :
    (if numberBase lx ≠ 10 then lx.advance 2 else lx) = start at read
  obtain ⟨body, rest, whole, count, value⟩ :=
    readDigits_prefix (numberBase lx) start.rest ⟨0, false, 0⟩ (by norm_num)
  have stopped : (start.advance body.length).rest = rest := by
    simp [Lexer.advance, whole]
  simp only [Nat.zero_mul, Nat.zero_add] at count value
  rw [count, value] at read
  split at read
  · obtain ⟨rfl, -⟩ := Prod.mk.inj read
    cases integer
  obtain ⟨rfl, rfl⟩ := Prod.mk.inj read
  rw [stopped]
  by_cases decimal : numberBase lx = 10
  · rw [if_neg (not_not.mpr decimal)] at started
    subst started
    have base : writtenBase body = 10 :=
      (writtenBase_eq_numberBase rest whole fun other => absurd decimal other).trans decimal
    refine ⟨body, whole, ?_⟩
    rw [writtenValue, base, decimal]
    rfl
  · rw [if_pos decimal] at started
    obtain ⟨a, b, text, start⟩ := exists_prefix_of_numberBase decimal
    have after : text = body ++ rest := by
      rw [← whole, ← started, Lexer.advance, start]
      rfl
    have base : writtenBase (a :: b :: body) = numberBase lx :=
      writtenBase_eq_numberBase rest (by rw [start, after]; rfl) (by simp)
    refine ⟨a :: b :: body, by rw [start, after]; rfl, ?_⟩
    rw [writtenValue, base, if_neg decimal]
    rfl

/-- Keywords and symbols are no integers, so that integer tokens are numerals. -/
theorem readNumber_of_lexerEmit {filename : String} {lx stop : Lexer}
    {token : Token} {log : Log} (emitted : lexerEmit filename lx = (token, stop, log))
    (integer : token.type = .integer) : readNumber lx = (token, stop) := by
  have keyword (value : String) : resolveKeyword value ≠ .integer := by
    unfold resolveKeyword
    split
    · rename_i spelling found
      have all : ∀ spelling ∈ kKeywords, spelling.1 ≠ .integer := by decide
      exact all spelling (List.mem_of_find?_eq_some found)
    · decide
  have symbol (lx : Lexer) : (readSymbol lx).1.type ≠ .integer := by
    unfold readSymbol
    split
    · exact TokenType.noConfusion
    · rename_i spelling found
      have all : ∀ spelling ∈ kSymbols, spelling.1 ≠ .integer := by decide
      exact all spelling (List.mem_of_find?_eq_some found)
  unfold lexerEmit at emitted
  dsimp only at emitted
  generalize chosen : (if isDigit lx.current then readNumber lx
    else if isIdentStart lx.current then readIdentifier lx
    else readSymbol lx) = read at emitted
  split at emitted
  · obtain ⟨rfl, -⟩ := Prod.mk.inj emitted
    cases integer
  obtain ⟨rfl, rest⟩ := Prod.mk.inj emitted
  obtain ⟨rfl, -⟩ := Prod.mk.inj rest
  split at chosen
  · exact chosen
  split at chosen
  · rw [← chosen] at integer
    exact absurd integer (keyword _)
  · rw [← chosen] at integer
    exact absurd integer (symbol lx)

end Sulfur
