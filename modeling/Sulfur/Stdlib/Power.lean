import Sulfur.Stdlib.Arith

/-!
# Powers of integers

`pow` of `std/math/arith.slfr`, with the arithmetic of the generated code.  A turn of its
loop squares the base, halves the exponent and multiplies the base into the result when the
exponent is odd.  The products wrap, so that the power is right modulo `2 ^ 64`.
-/

namespace Sulfur.Stdlib

open Ir

/-- One turn of the loop of `pow`: the new values of `base`, `result` and `exp`. -/
def powTurn (base result exp : Int) : Option (Int × Int × Int) := do
  let h ← binaryResult .div .u64 exp 2
  let doubled ← binaryResult .mul .u64 h 2
  let result ← if doubled ≠ exp then binaryResult .mul .i64 result base else some result
  let base ← binaryResult .mul .i64 base base
  return (base, result, h)

/-- A loop goes on behind its turn, or ends in the trap of the turn. -/
def afterTurn {α : Type} (turn : Option α) (next : α → Option Ending) : Option Ending :=
  match turn with
  | none => some .trapped
  | some values => next values

/-- The loop of `pow`, with fuel for its turns. -/
def powLoop : Nat → Int → Int → Int → Option Ending
  | 0, _, _, _ => none
  | fuel + 1, base, result, exp =>
      if exp > 0 then
        afterTurn (powTurn base result exp)
          fun (base, result, exp) => powLoop fuel base result exp
      else
        some (.returned result)

/-- `pow`, with fuel for the turns of its loop. -/
def pow (fuel : Nat) (base exp : Int) : Option Ending :=
  powLoop fuel base 1 exp

/-- A product of `i64` numbers, modulo the number of their patterns. -/
theorem mul_modEq (a b : Int) :
    ∃ product, binaryResult .mul .i64 a b = some product ∧ ValueType.i64.InRange product ∧
      product ≡ a * b [ZMOD 2 ^ 64] := by
  refine ⟨_, rfl, ValueType.wrap_inRange _ _, ?_⟩
  have residue (value : Int) : ValueType.i64.wrap value ≡ value [ZMOD 2 ^ 64] :=
    ValueType.i64.format.wrap_emod value
  exact (residue _).trans ((residue a).mul (residue b))

/-- What a turn multiplies into the result, it takes away from the power that is left. -/
theorem squared_pow (base result : Int) (exp : Nat) :
    (if exp % 2 = 1 then result * base else result) * (base * base) ^ (exp / 2) =
      result * base ^ exp := by
  have split : base ^ exp = base ^ (exp % 2) * (base * base) ^ (exp / 2) := by
    rw [← pow_two, ← pow_mul, ← pow_add, Nat.mod_add_div]
  rw [split]
  rcases Nat.mod_two_eq_zero_or_one exp with even | odd
  · rw [even, if_neg (by simp), pow_zero, one_mul]
  · rw [odd, if_pos rfl, pow_one, mul_assoc]

/-- A turn keeps the power that it works on, modulo `2 ^ 64`. -/
theorem powTurn_spec (base : Int) {result : Int} {exp : Nat} (small : exp < 2 ^ 64)
    (range : ValueType.i64.InRange result) :
    ∃ newBase newResult,
      powTurn base result exp = some (newBase, newResult, ((exp / 2 : Nat) : Int)) ∧
      ValueType.i64.InRange newResult ∧
      newResult * newBase ^ (exp / 2) ≡ result * base ^ exp [ZMOD 2 ^ 64] := by
  have expRange : ValueType.u64.InRange exp := by
    rw [inRange_u64_iff, i64Min]
    omega
  have halfRange : ValueType.u64.InRange ((exp / 2 : Nat) : Int) := by
    rw [inRange_u64_iff, i64Min]
    omega
  have quotient : (exp : Int).tdiv 2 = ((exp / 2 : Nat) : Int) := (Int.ofNat_tdiv exp 2).symm
  have halved : binaryResult .div .u64 exp 2 = some ((exp / 2 : Nat) : Int) := by
    rw [← quotient] at halfRange ⊢
    exact div_inRange expRange (by decide) (by decide) halfRange
  have doubled : binaryResult .mul .u64 ((exp / 2 : Nat) : Int) 2 =
      some (((exp / 2 : Nat) : Int) * 2) := by
    apply mul_inRange halfRange (by decide)
    rw [inRange_u64_iff, i64Min]
    omega
  have parity : ((exp / 2 : Nat) : Int) * 2 ≠ exp ↔ exp % 2 = 1 := by
    omega
  rcases mul_modEq base base with ⟨square, squared, -, squareResidue⟩
  rcases mul_modEq result base with ⟨product, multiplied, productRange, productResidue⟩
  refine ⟨square, if exp % 2 = 1 then product else result, ?_, ?_, ?_⟩
  · simp only [powTurn, halved, doubled, multiplied, squared, Option.bind_eq_bind,
      Option.bind_some, Option.pure_def, parity]
    split <;> rfl
  · split
    · exact productRange
    · exact range
  · rw [← squared_pow base result exp]
    apply Int.ModEq.mul _ (squareResidue.pow _)
    split
    · exact productResidue
    · exact Int.ModEq.refl _

/-- The loop ends with the power that it works on, whatever it wraps on the way. -/
theorem powLoop_returns {base result : Int} {exp : Nat} (small : exp < 2 ^ 64)
    (range : ValueType.i64.InRange result) {fuel : Nat} (enough : exp < fuel) :
    powLoop fuel base result exp =
      some (.returned (ValueType.i64.wrap (result * base ^ exp))) := by
  induction fuel generalizing base result exp with
  | zero => cases enough
  | succ fuel inductionHypothesis =>
      unfold powLoop
      by_cases zero : exp = 0
      · subst zero
        have own : ValueType.i64.wrap (result * base ^ 0) = result := by
          rw [pow_zero, mul_one, ValueType.wrap_of_inRange range]
        rw [own]
        rfl
      · have positive : (exp : Int) > 0 := by omega
        have half : exp / 2 < exp := Nat.div_lt_self (by omega) (by decide)
        rcases powTurn_spec base small range with ⟨newBase, newResult, turn, newRange, residue⟩
        rw [if_pos positive, turn, afterTurn]
        dsimp only
        rw [inductionHypothesis (half.trans small) newRange (by omega)]
        have same : ValueType.i64.wrap (newResult * newBase ^ (exp / 2)) =
            ValueType.i64.wrap (result * base ^ exp) :=
          Word.Format.wrap_eq_wrap_iff.mpr residue
        rw [same]

/-- `pow` returns the `i64` that is congruent to the power modulo `2 ^ 64`. -/
theorem pow_returns (base : Int) {exp : Int} (expRange : ValueType.u64.InRange exp) :
    ∃ value, Returns (fun fuel => pow fuel base exp) value ∧
      ValueType.i64.InRange value ∧ value ≡ base ^ exp.toNat [ZMOD 2 ^ 64] := by
  have bounds := inRange_u64_iff.mp expRange
  rw [i64Min] at bounds
  refine ⟨ValueType.i64.wrap (base ^ exp.toNat), ⟨exp.toNat + 1, fun fuel enough => ?_⟩,
    ValueType.wrap_inRange _ _, ValueType.i64.format.wrap_emod _⟩
  have small : exp.toNat < 2 ^ 64 := by omega
  have one : ValueType.i64.InRange 1 := by decide
  have run : powLoop fuel base 1 exp.toNat = _ := powLoop_returns small one enough
  rw [Int.toNat_of_nonneg bounds.1, one_mul] at run
  exact run

/-- The largest exponent. -/
theorem pow_returns_largest :
    ∃ value, Returns (fun fuel => pow fuel 3 18446744073709551615) value ∧
      ValueType.i64.InRange value ∧
      value ≡ 3 ^ (18446744073709551615 : Int).toNat [ZMOD 2 ^ 64] :=
  pow_returns 3 (by decide)

end Sulfur.Stdlib
