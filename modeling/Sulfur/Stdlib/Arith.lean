import Sulfur.Ir.Semantics
import Sulfur.Library.Euclid

/-!
# Divisors of integers

`abs`, `gcd` and `lcm` of `std/math/arith.slfr`, with the arithmetic of the generated code:
the results wrap at the width of their type, and a division traps when its divisor is zero
or its quotient is out of range.

The magnitude of the smallest `i64` is no `i64`.  `gcd` works on its negative, and the
Euclidean algorithm hands the sign on to every other remainder.
-/

namespace Sulfur.Stdlib

open Ir Euclid

/-- The smallest `i64`. -/
def i64Min : Int :=
  -9223372036854775808

/-- How a call ends, if it does. -/
inductive Ending
  | trapped
  | returned (value : Int)
  deriving DecidableEq, Repr

/-- `abs`, a `u64`. -/
def abs (n : Int) : Option Int :=
  if n < 0 then do
    let next ← binaryResult .add .i64 n 1
    binaryResult .add .u64 (ValueType.u64.wrap (ValueType.i64.wrap (-next))) 1
  else
    some (ValueType.u64.wrap n)

/-- One turn of the loop of `gcd`: the new values of `a` and `b`. -/
def gcdTurn (a b : Int) : Option (Int × Int) := do
  let quotient ← binaryResult .div .i64 a b
  let product ← binaryResult .mul .i64 quotient b
  let r ← binaryResult .sub .i64 a product
  return (b, r)

/-- The loop of `gcd`, with fuel for its turns. -/
def gcdLoop : Nat → Int → Int → Option Ending
  | 0, _, _ => none
  | fuel + 1, a, b =>
      if b ≠ 0 then
        match gcdTurn a b with
        | none => some .trapped
        | some (a, b) => gcdLoop fuel a b
      else
        some (.returned a)

/-- `gcd`, with fuel for the turns of its loop. -/
def gcd (fuel : Nat) (a b : Int) : Option Ending :=
  match abs a, abs b with
  | some a, some b => gcdLoop fuel (ValueType.i64.wrap a) (ValueType.i64.wrap b)
  | _, _ => some .trapped

/-- The last line of `lcm`, after the call of `gcd`. -/
def lcmResult (a b divisor : Int) : Option Int := do
  let quotient ← binaryResult .div .i64 a divisor
  let product ← binaryResult .mul .i64 quotient b
  let magnitude ← abs product
  return ValueType.i64.wrap magnitude

/-- `lcm`, with fuel for the loop of `gcd`. -/
def lcm (fuel : Nat) (a b : Int) : Option Ending :=
  if a = 0 ∨ b = 0 then
    some (.returned 0)
  else
    match gcd fuel a b with
    | none => none
    | some .trapped => some .trapped
    | some (.returned divisor) =>
        match lcmResult a b divisor with
        | none => some .trapped
        | some value => some (.returned value)

/-- With enough fuel the call returns the value. -/
def Returns (call : Nat → Option Ending) (value : Int) : Prop :=
  ∃ least, ∀ fuel ≥ least, call fuel = some (.returned value)

/-- A call returns one value at most. -/
theorem Returns.unique {call : Nat → Option Ending} {first second : Int}
    (returnsFirst : Returns call first) (returnsSecond : Returns call second) :
    first = second := by
  rcases returnsFirst with ⟨least, runsFirst⟩
  rcases returnsSecond with ⟨otherLeast, runsSecond⟩
  have same := runsFirst (max least otherLeast) (Nat.le_max_left _ _)
  rw [runsSecond _ (Nat.le_max_right _ _), Option.some.injEq, Ending.returned.injEq] at same
  exact same.symm

/-! ## Arithmetic in range -/

section InRange

variable {type : ValueType} {a b : Int}

theorem add_inRange (first : type.InRange a) (second : type.InRange b)
    (sum : type.InRange (a + b)) : binaryResult .add type a b = some (a + b) := by
  simp only [binaryResult, ValueType.wrap_of_inRange first, ValueType.wrap_of_inRange second,
    ValueType.wrap_of_inRange sum]

theorem sub_inRange (first : type.InRange a) (second : type.InRange b)
    (difference : type.InRange (a - b)) : binaryResult .sub type a b = some (a - b) := by
  simp only [binaryResult, ValueType.wrap_of_inRange first, ValueType.wrap_of_inRange second,
    ValueType.wrap_of_inRange difference]

theorem mul_inRange (first : type.InRange a) (second : type.InRange b)
    (product : type.InRange (a * b)) : binaryResult .mul type a b = some (a * b) := by
  simp only [binaryResult, ValueType.wrap_of_inRange first, ValueType.wrap_of_inRange second,
    ValueType.wrap_of_inRange product]

/-- A division in range neither traps nor wraps. -/
theorem div_inRange (first : type.InRange a) (second : type.InRange b) (nonzero : b ≠ 0)
    (quotient : type.InRange (a.tdiv b)) :
    binaryResult .div type a b = some (a.tdiv b) := by
  simp only [binaryResult, ValueType.wrap_of_inRange first, ValueType.wrap_of_inRange second]
  rw [if_pos ⟨nonzero, quotient⟩]

end InRange

theorem inRange_i64_iff {value : Int} :
    ValueType.i64.InRange value ↔ i64Min ≤ value ∧ value < -i64Min := by
  change -2 ^ 64 ≤ 2 * value ∧ 2 * value < 2 ^ 64 ↔ _
  unfold i64Min
  omega

theorem inRange_u64_iff {value : Int} :
    ValueType.u64.InRange value ↔ 0 ≤ value ∧ value < -2 * i64Min :=
  Iff.rfl

theorem i64Min_lt : i64Min < -1 := by
  decide

/-- `abs` returns the magnitude, also that of the smallest `i64`. -/
theorem abs_eq {n : Int} (range : ValueType.i64.InRange n) : abs n = some (n.natAbs : Int) := by
  have low := i64Min_lt
  have bounds := inRange_i64_iff.mp range
  unfold abs
  by_cases negative : n < 0
  · have nextRange : ValueType.i64.InRange (n + 1) := by
      rw [inRange_i64_iff]
      omega
    have negatedRange : ValueType.i64.InRange (-(n + 1)) := by
      rw [inRange_i64_iff]
      omega
    have castRange : ValueType.u64.InRange (-(n + 1)) := by
      rw [inRange_u64_iff]
      omega
    have magnitudeRange : ValueType.u64.InRange (-(n + 1) + 1) := by
      rw [inRange_u64_iff]
      omega
    have magnitude : -(n + 1) + 1 = (n.natAbs : Int) := by
      omega
    rw [if_pos negative, add_inRange range (by decide) nextRange]
    simp only [Option.bind_eq_bind, Option.bind_some,
      ValueType.wrap_of_inRange negatedRange, ValueType.wrap_of_inRange castRange]
    rw [add_inRange castRange (by decide) magnitudeRange, magnitude]
  · have castRange : ValueType.u64.InRange n := by
      rw [inRange_u64_iff]
      omega
    rw [if_neg negative, ValueType.wrap_of_inRange castRange,
      Int.natAbs_of_nonneg (not_lt.mp negative)]

/-- A quotient is an `i64` unless it is the magnitude of the smallest `i64`. -/
theorem tdiv_inRange {a b : Int} (range : ValueType.i64.InRange a)
    (noOverflow : ¬(a = i64Min ∧ b = -1)) : ValueType.i64.InRange (a.tdiv b) := by
  have bounds := inRange_i64_iff.mp range
  have smaller := Int.natAbs_tdiv_le_natAbs a b
  by_cases one : b = 1
  · rw [one, Int.tdiv_one]
    exact range
  · rw [inRange_i64_iff]
    by_cases same : (a.tdiv b).natAbs = a.natAbs
    · -- The quotient is as large as the dividend for a divisor of magnitude 1 only.
      rw [Int.natAbs_tdiv] at same
      rcases Nat.div_eq_self.mp same with zero | unit
      · omega
      · have minusOne : b = -1 := by omega
        have notMin : a ≠ i64Min := fun isMin => noOverflow ⟨isMin, minusOne⟩
        omega
    · omega

/-- A remainder lies between zero and the dividend. -/
theorem tmod_between (a b : Int) :
    (0 ≤ a → 0 ≤ a.tmod b ∧ a.tmod b ≤ a) ∧ (a ≤ 0 → a ≤ a.tmod b ∧ a.tmod b ≤ 0) := by
  have smaller : (a.tmod b).natAbs ≤ a.natAbs := by
    rw [Int.natAbs_tmod]
    exact Nat.mod_le _ _
  constructor
  · intro nonneg
    have sign := Int.tmod_nonneg b nonneg
    omega
  · intro nonpos
    have sign := Int.tmod_nonneg b (Int.neg_nonneg_of_nonpos nonpos)
    rw [Int.neg_tmod] at sign
    omega

theorem tmod_natAbs_lt {a b : Int} (nonzero : b ≠ 0) : (a.tmod b).natAbs < b.natAbs := by
  rw [Int.natAbs_tmod]
  exact Nat.mod_lt _ (Int.natAbs_pos.mpr nonzero)

/-- A turn of the loop takes the remainder. -/
theorem gcdTurn_eq {a b : Int} (firstRange : ValueType.i64.InRange a)
    (secondRange : ValueType.i64.InRange b) (nonzero : b ≠ 0)
    (noOverflow : ¬(a = i64Min ∧ b = -1)) : gcdTurn a b = some (b, a.tmod b) := by
  have bounds := inRange_i64_iff.mp firstRange
  have between := tmod_between a b
  have quotientRange := tdiv_inRange firstRange noOverflow
  have product : a.tdiv b * b = a - a.tmod b := by
    have split := Int.tdiv_mul_add_tmod a b
    omega
  have productRange : ValueType.i64.InRange (a.tdiv b * b) := by
    rw [product, inRange_i64_iff]
    omega
  have remainder : a - a.tdiv b * b = a.tmod b := by
    rw [product]
    omega
  have remainderRange : ValueType.i64.InRange (a - a.tdiv b * b) := by
    rw [remainder, inRange_i64_iff]
    omega
  calc
    gcdTurn a b = (binaryResult .div .i64 a b).bind fun quotient =>
        (binaryResult .mul .i64 quotient b).bind fun product =>
          (binaryResult .sub .i64 a product).bind fun r => some (b, r) := rfl
    _ = some (b, a.tmod b) := by
      rw [div_inRange firstRange secondRange nonzero quotientRange, Option.bind_some,
        mul_inRange quotientRange secondRange productRange, Option.bind_some,
        sub_inRange firstRange productRange remainderRange, Option.bind_some, remainder]

/-- The pairs that the loop of `gcd` meets: no division overflows now or in the next
turn. -/
structure Divisible (a b : Int) : Prop where
  first : ValueType.i64.InRange a
  second : ValueType.i64.InRange b
  now : ¬(a = i64Min ∧ b = -1)
  next : ¬(a = -1 ∧ b = i64Min)

theorem Divisible.turn {a b : Int} (divisible : Divisible a b) (nonzero : b ≠ 0) :
    Divisible b (a.tmod b) := by
  have between := tmod_between a b
  have bounds := inRange_i64_iff.mp divisible.first
  have low := i64Min_lt
  have less := tmod_natAbs_lt (a := a) nonzero
  constructor
  · exact divisible.second
  · rw [inRange_i64_iff]
    omega
  · rintro ⟨isMin, minusOne⟩
    -- The dividend is smaller than the divisor, so that it is its own remainder.
    by_cases small : a.natAbs < b.natAbs
    · have magnitude := Int.natAbs_tmod a b
      rw [minusOne, Nat.mod_eq_of_lt small] at magnitude
      have isMinusOne : a = -1 := by omega
      exact divisible.next ⟨isMinusOne, isMin⟩
    · have minMagnitude : a = i64Min := by omega
      rw [minMagnitude, isMin, Int.tmod_self] at minusOne
      cases minusOne
  · rintro ⟨minusOne, isMin⟩
    omega

/-- The loop ends with the last remainder. -/
theorem gcdLoop_returns {a b : Int} (divisible : Divisible a b) {fuel : Nat}
    (enough : b.natAbs < fuel) : gcdLoop fuel a b = some (.returned (lastRemainder a b)) := by
  induction fuel generalizing a b with
  | zero => cases enough
  | succ fuel inductionHypothesis =>
      unfold gcdLoop
      by_cases zero : b = 0
      · rw [if_neg (not_not_intro zero), zero, lastRemainder_zero]
      · have less := tmod_natAbs_lt (a := a) zero
        rw [if_pos zero, gcdTurn_eq divisible.first divisible.second zero divisible.now,
          lastRemainder_of_ne zero]
        exact inductionHypothesis (divisible.turn zero) (by omega)

theorem Divisible.lastRemainder_inRange {a b : Int} (divisible : Divisible a b) :
    ValueType.i64.InRange (lastRemainder a b) := by
  induction a, b using lastRemainder.induct with
  | case1 a =>
      rw [lastRemainder_zero]
      exact divisible.first
  | case2 a b nonzero inductionHypothesis =>
      rw [lastRemainder_of_ne nonzero]
      exact inductionHypothesis (divisible.turn nonzero)

/-- The magnitude as an `i64`: that of the smallest `i64` becomes negative. -/
theorem wrap_natAbs {n : Int} (range : ValueType.i64.InRange n) :
    ValueType.i64.wrap (n.natAbs : Int) =
      (if n = i64Min then -1 else 1 : ℤˣ) * (n.natAbs : Int) := by
  have bounds := inRange_i64_iff.mp range
  by_cases isMin : n = i64Min
  · rw [if_pos isMin, isMin]
    rfl
  · rw [if_neg isMin, Units.val_one, one_mul]
    apply ValueType.wrap_of_inRange
    rw [inRange_i64_iff]
    omega

theorem wrap_natAbs_ne {n : Int} (range : ValueType.i64.InRange n) :
    ValueType.i64.wrap (n.natAbs : Int) ≠ -1 := by
  rw [wrap_natAbs range]
  by_cases isMin : n = i64Min
  · rw [if_pos isMin, isMin]
    decide
  · rw [if_neg isMin, Units.val_one, one_mul]
    omega

/-- The sign of what `gcd` returns. -/
def gcdSign (a b : Int) : ℤˣ :=
  if Even (divisions a.natAbs b.natAbs) then
    if a = i64Min then -1 else 1
  else
    if b = i64Min then -1 else 1

theorem divisible_magnitudes {a b : Int} (firstRange : ValueType.i64.InRange a)
    (secondRange : ValueType.i64.InRange b) :
    Divisible (ValueType.i64.wrap (a.natAbs : Int)) (ValueType.i64.wrap (b.natAbs : Int)) := by
  constructor
  · exact ValueType.wrap_inRange _ _
  · exact ValueType.wrap_inRange _ _
  · exact fun overflow => wrap_natAbs_ne secondRange overflow.2
  · exact fun overflow => wrap_natAbs_ne firstRange overflow.1

theorem lastRemainder_magnitudes {a b : Int} (firstRange : ValueType.i64.InRange a)
    (secondRange : ValueType.i64.InRange b) :
    lastRemainder (ValueType.i64.wrap (a.natAbs : Int)) (ValueType.i64.wrap (b.natAbs : Int)) =
      gcdSign a b * (Int.gcd a b : Int) := by
  rw [wrap_natAbs firstRange, wrap_natAbs secondRange, lastRemainder_units,
    Int.gcd_eq_natAbs_gcd_natAbs]
  rfl

/-- `gcd` always returns, without a trap; what it returns is the greatest common divisor or
its negative. -/
theorem gcd_returns {a b : Int} (firstRange : ValueType.i64.InRange a)
    (secondRange : ValueType.i64.InRange b) :
    Returns (fun fuel => gcd fuel a b) (gcdSign a b * (Int.gcd a b : Int)) := by
  refine ⟨(ValueType.i64.wrap (b.natAbs : Int)).natAbs + 1, fun fuel enough => ?_⟩
  simp only [gcd, abs_eq firstRange, abs_eq secondRange]
  rw [gcdLoop_returns (divisible_magnitudes firstRange secondRange) enough,
    lastRemainder_magnitudes firstRange secondRange]

theorem gcdSign_eq_one_iff {a b : Int} :
    gcdSign a b = 1 ↔ (Even (divisions a.natAbs b.natAbs) → a ≠ i64Min) ∧
      (Odd (divisions a.natAbs b.natAbs) → b ≠ i64Min) := by
  unfold gcdSign
  generalize divisions a.natAbs b.natAbs = count
  have differ : (-1 : ℤˣ) ≠ 1 := by decide
  by_cases even : Even count
  · have notOdd := Nat.not_odd_iff_even.mpr even
    by_cases isMin : a = i64Min
    · simp [even, isMin, differ]
    · simp [even, isMin, notOdd]
  · have odd := Nat.not_even_iff_odd.mp even
    by_cases isMin : b = i64Min
    · simp [even, odd, isMin, differ]
    · simp [even, isMin]

theorem gcdSign_inRange {a b : Int} (firstRange : ValueType.i64.InRange a)
    (secondRange : ValueType.i64.InRange b) :
    ValueType.i64.InRange (gcdSign a b * (Int.gcd a b : Int)) := by
  rw [← lastRemainder_magnitudes firstRange secondRange]
  exact (divisible_magnitudes firstRange secondRange).lastRemainder_inRange

theorem gcdSign_zero : gcdSign 0 0 = 1 := by
  rw [gcdSign_eq_one_iff]
  exact ⟨fun _ => by decide, fun _ => by decide⟩

/-- A greatest common divisor that is an `i64` is returned with its sign if and only if the
Euclidean algorithm, which hands the sign of the first number on at every other division,
does not end with the sign of the smallest `i64`. -/
theorem gcd_iff {a b : Int} (firstRange : ValueType.i64.InRange a)
    (secondRange : ValueType.i64.InRange b)
    (representable : ValueType.i64.InRange (Int.gcd a b : Int)) :
    Returns (fun fuel => gcd fuel a b) (Int.gcd a b : Int) ↔
      (Even (divisions a.natAbs b.natAbs) → a ≠ i64Min) ∧
        (Odd (divisions a.natAbs b.natAbs) → b ≠ i64Min) := by
  have returns := gcd_returns firstRange secondRange
  rw [← gcdSign_eq_one_iff]
  constructor
  · intro correct
    have same := returns.unique correct
    rcases Int.units_eq_one_or (gcdSign a b) with positive | negative
    · exact positive
    · rw [negative, Units.val_neg, Units.val_one, neg_one_mul] at same
      have noDivisor : Int.gcd a b = 0 := by omega
      rcases Int.gcd_eq_zero_iff.mp noDivisor with ⟨rfl, rfl⟩
      exact gcdSign_zero
  · intro positive
    rw [positive, Units.val_one, one_mul] at returns
    exact returns

/-- The smallest `i64` and 3 take an odd number of divisions. -/
theorem gcd_iff_min_three :
    Returns (fun fuel => gcd fuel i64Min 3) (Int.gcd i64Min 3 : Int) := by
  have count : divisions i64Min.natAbs (3 : Int).natAbs = 3 := by
    simp [divisions, i64Min]
  apply (gcd_iff (by decide) (by decide) (by decide)).mpr
  rw [count]
  exact ⟨fun even => absurd even (by decide), fun _ => by decide⟩

theorem divisions_min_five : divisions i64Min.natAbs 5 = 4 := by
  simp [divisions, i64Min]

/-- The divisor of the smallest `i64` and 5 is returned as -1. -/
theorem gcd_min_five_returns : Returns (fun fuel => gcd fuel i64Min 5) (-1) := by
  have value : (gcdSign i64Min 5 * (Int.gcd i64Min 5 : Int) : Int) = -1 := by
    have sign : gcdSign i64Min 5 = -1 := by
      unfold gcdSign
      rw [show (5 : Int).natAbs = 5 from rfl, divisions_min_five]
      rfl
    rw [sign]
    rfl
  rw [← value]
  exact gcd_returns (by decide) (by decide)

theorem gcd_min_five :
    ValueType.i64.InRange (Int.gcd i64Min 5 : Int) ∧
      ¬Returns (fun fuel => gcd fuel i64Min 5) (Int.gcd i64Min 5 : Int) := by
  constructor
  · decide
  · intro correct
    have same := gcd_min_five_returns.unique correct
    revert same
    decide

/-! ## The least common multiple -/

/-- Away from the division that overflows, `lcm` ends with some value. -/
theorem lcmResult_isSome {a b divisor : Int} (firstRange : ValueType.i64.InRange a)
    (divisorRange : ValueType.i64.InRange divisor) (nonzero : divisor ≠ 0)
    (noOverflow : ¬(a = i64Min ∧ divisor = -1)) : (lcmResult a b divisor).isSome := by
  have quotientRange := tdiv_inRange firstRange noOverflow
  have unfolded : lcmResult a b divisor =
      (binaryResult .div .i64 a divisor).bind fun quotient =>
        (binaryResult .mul .i64 quotient b).bind fun product =>
          (abs product).bind fun magnitude => some (ValueType.i64.wrap magnitude) := rfl
  rw [unfolded, div_inRange firstRange divisorRange nonzero quotientRange, Option.bind_some,
    binaryResult, Option.bind_some, abs_eq (ValueType.wrap_inRange _ _), Option.bind_some]
  rfl

/-- The division by -1 of the smallest `i64` traps. -/
theorem lcmResult_overflow (b : Int) : lcmResult i64Min b (-1) = none := by
  have traps : binaryResult .div .i64 i64Min (-1) = none := by rfl
  have unfolded : lcmResult i64Min b (-1) =
      (binaryResult .div .i64 i64Min (-1)).bind fun quotient =>
        (binaryResult .mul .i64 quotient b).bind fun product =>
          (abs product).bind fun magnitude => some (ValueType.i64.wrap magnitude) := rfl
  rw [unfolded, traps, Option.bind_none]

/-- A least common multiple that is an `i64` is the result for the greatest common
divisor. -/
theorem lcmResult_eq {a b : Int} (firstRange : ValueType.i64.InRange a)
    (secondRange : ValueType.i64.InRange b) (nonzero : a ≠ 0)
    (divisorRange : ValueType.i64.InRange (Int.gcd a b : Int))
    (fits : ValueType.i64.InRange (Int.lcm a b : Int)) :
    lcmResult a b (Int.gcd a b : Int) = some (Int.lcm a b : Int) := by
  have someDivisor : Int.gcd a b ≠ 0 := fun zero => nonzero (Int.gcd_eq_zero_iff.mp zero).1
  have quotientRange := tdiv_inRange (b := (Int.gcd a b : Int)) firstRange (by omega)
  have product : (a.tdiv (Int.gcd a b) * b).natAbs = Int.lcm a b := by
    have exact_ : a.tdiv (Int.gcd a b) * (Int.gcd a b : Int) = a :=
      Int.tdiv_mul_cancel (Int.gcd_dvd_left a b)
    apply Nat.eq_of_mul_eq_mul_left (Nat.pos_of_ne_zero someDivisor)
    calc
      Int.gcd a b * (a.tdiv (Int.gcd a b) * b).natAbs =
          (a.tdiv (Int.gcd a b) * (Int.gcd a b : Int) * b).natAbs := by
        rw [Int.natAbs_mul, Int.natAbs_mul, Int.natAbs_mul, Int.natAbs_natCast]
        ring
      _ = Int.gcd a b * Int.lcm a b := by
        rw [exact_, Int.natAbs_mul, Int.gcd_mul_lcm]
  have productRange : ValueType.i64.InRange (a.tdiv (Int.gcd a b) * b) := by
    have bounds := inRange_i64_iff.mp fits
    have low := i64Min_lt
    rw [inRange_i64_iff]
    omega
  calc
    lcmResult a b (Int.gcd a b : Int) =
        (binaryResult .div .i64 a (Int.gcd a b)).bind fun quotient =>
          (binaryResult .mul .i64 quotient b).bind fun product =>
            (abs product).bind fun magnitude => some (ValueType.i64.wrap magnitude) := rfl
    _ = some (Int.lcm a b : Int) := by
      rw [div_inRange firstRange divisorRange (by omega) quotientRange, Option.bind_some,
        mul_inRange quotientRange secondRange productRange, Option.bind_some,
        abs_eq productRange, Option.bind_some, product, ValueType.wrap_of_inRange fits]

/-- The numbers with a least common multiple in range are not the smallest `i64`. -/
theorem ne_min_of_lcm {a b : Int} (nonzero : a ≠ 0) (otherNonzero : b ≠ 0)
    (fits : ValueType.i64.InRange (Int.lcm a b : Int)) : a ≠ i64Min ∧ b ≠ i64Min := by
  have bounds := inRange_i64_iff.mp fits
  have low := i64Min_lt
  have positive := Int.lcm_pos nonzero otherNonzero
  have first := Nat.le_of_dvd positive (Int.natAbs_dvd_natAbs.mpr (Int.dvd_lcm_left a b))
  have second := Nat.le_of_dvd positive (Int.natAbs_dvd_natAbs.mpr (Int.dvd_lcm_right a b))
  omega

/-- The division of `lcm` overflows. -/
theorem overflows_iff {a b : Int} :
    a = i64Min ∧ gcdSign a b * (Int.gcd a b : Int) = -1 ↔
      a = i64Min ∧ Odd b ∧ Even (divisions a.natAbs b.natAbs) := by
  apply and_congr_right
  rintro rfl
  have coprime : Int.gcd i64Min b = 1 ↔ Odd b := by
    have power : i64Min.natAbs = 2 ^ 63 := by decide
    rw [Int.gcd_eq_natAbs_gcd_natAbs, power, ← Int.natAbs_odd, ← Nat.coprime_two_left]
    exact Nat.coprime_pow_left_iff (by decide) _ _
  rw [← coprime]
  constructor
  · intro overflows
    rcases Int.units_eq_one_or (gcdSign i64Min b) with positive | negative
    · rw [positive, Units.val_one, one_mul] at overflows
      omega
    · rw [negative, Units.val_neg, Units.val_one, neg_one_mul] at overflows
      have one : Int.gcd i64Min b = 1 := by omega
      refine ⟨one, ?_⟩
      by_contra odd
      have isMin : b = i64Min := by
        by_contra other
        rw [gcdSign, if_neg odd, if_neg other] at negative
        revert negative
        decide
      rw [isMin] at one
      revert one
      decide
  · rintro ⟨one, even⟩
    rw [gcdSign, if_pos even, if_pos rfl, one]
    rfl

/-- What `lcm` does after `gcd` has returned. -/
theorem lcm_of_gcd {a b divisor : Int} (nonzero : ¬(a = 0 ∨ b = 0))
    (divides : Returns (fun fuel => gcd fuel a b) divisor) :
    ∃ least, ∀ fuel ≥ least, lcm fuel a b =
      match lcmResult a b divisor with
      | none => some .trapped
      | some value => some (.returned value) := by
  rcases divides with ⟨least, runs⟩
  refine ⟨least, fun fuel enough => ?_⟩
  have divided : gcd fuel a b = some (.returned divisor) := runs fuel enough
  simp only [lcm, if_neg nonzero, divided]

/-- `lcm` returns, and returns a least common multiple that is an `i64`, unless it divides
the smallest `i64` by -1. -/
theorem lcm_iff {a b : Int} (firstRange : ValueType.i64.InRange a)
    (secondRange : ValueType.i64.InRange b) :
    (∃ value, Returns (fun fuel => lcm fuel a b) value) ∧
        (ValueType.i64.InRange (Int.lcm a b : Int) →
          Returns (fun fuel => lcm fuel a b) (Int.lcm a b : Int)) ↔
      ¬(a = i64Min ∧ Odd b ∧ Even (divisions a.natAbs b.natAbs)) := by
  rw [← overflows_iff]
  by_cases zero : a = 0 ∨ b = 0
  · have returns : Returns (fun fuel => lcm fuel a b) 0 := by
      refine ⟨0, fun fuel _ => ?_⟩
      simp only [lcm, if_pos zero]
    have multiple : (Int.lcm a b : Int) = 0 := by
      rw [Int.natCast_eq_zero, Int.lcm_eq_zero_iff]
      exact zero
    have fine : ¬(a = i64Min ∧ gcdSign a b * (Int.gcd a b : Int) = -1) := by
      rw [overflows_iff]
      rintro ⟨isMin, odd, -⟩
      rcases zero with rfl | rfl
      · cases isMin
      · revert odd
        decide
    rw [multiple]
    exact iff_of_true ⟨⟨0, returns⟩, fun _ => returns⟩ fine
  · rcases lcm_of_gcd zero (gcd_returns firstRange secondRange) with ⟨least, runs⟩
    rw [not_or] at zero
    constructor
    · rintro ⟨⟨value, bound, returns⟩, -⟩ ⟨rfl, overflows⟩
      -- The division traps, so that nothing is returned.
      have trapped := runs (max least bound) (Nat.le_max_left _ _)
      rw [overflows, lcmResult_overflow] at trapped
      have returned : lcm (max least bound) i64Min b = some (.returned value) :=
        returns _ (Nat.le_max_right _ _)
      rw [trapped] at returned
      cases returned
    · intro noOverflow
      constructor
      · have divisorRange := gcdSign_inRange firstRange secondRange
        have someDivisor : (gcdSign a b * (Int.gcd a b : Int) : Int) ≠ 0 := by
          apply mul_ne_zero (Units.ne_zero _)
          rw [Int.natCast_ne_zero]
          exact fun none_ => zero.1 (Int.gcd_eq_zero_iff.mp none_).1
        have ends := lcmResult_isSome (b := b) firstRange divisorRange someDivisor noOverflow
        rcases Option.isSome_iff_exists.mp ends with ⟨value, result⟩
        refine ⟨value, least, fun fuel enough => ?_⟩
        have run := runs fuel enough
        rw [result] at run
        exact run
      · intro fits
        rcases ne_min_of_lcm zero.1 zero.2 fits with ⟨first, second⟩
        have positive := gcdSign_eq_one_iff.mpr ⟨fun _ => first, fun _ => second⟩
        have divisorRange := gcdSign_inRange firstRange secondRange
        rw [positive, Units.val_one, one_mul] at runs divisorRange
        refine ⟨least, fun fuel enough => ?_⟩
        have run := runs fuel enough
        rw [lcmResult_eq firstRange secondRange zero.1 divisorRange fits] at run
        exact run

theorem lcm_iff_min_three :
    (∃ value, Returns (fun fuel => lcm fuel i64Min 3) value) ∧
      (ValueType.i64.InRange (Int.lcm i64Min 3 : Int) →
        Returns (fun fuel => lcm fuel i64Min 3) (Int.lcm i64Min 3 : Int)) := by
  have count : divisions i64Min.natAbs (3 : Int).natAbs = 3 := by
    simp [divisions, i64Min]
  apply (lcm_iff (by decide) (by decide)).mpr
  rw [count]
  exact fun overflows => absurd overflows.2.2 (by decide)

/-- For the smallest `i64` and 5 the quotient by the divisor -1 is no `i64`. -/
theorem lcm_min_five :
    lcm 10 i64Min 5 = some .trapped ∧
      ¬∃ value, Returns (fun fuel => lcm fuel i64Min 5) value := by
  constructor
  · rfl
  · rintro ⟨value, bound, returns⟩
    rcases lcm_of_gcd (by decide) gcd_min_five_returns with ⟨least, runs⟩
    have trapped := runs (max least bound) (Nat.le_max_left _ _)
    rw [lcmResult_overflow] at trapped
    have returned : lcm (max least bound) i64Min 5 = some (.returned value) :=
      returns _ (Nat.le_max_right _ _)
    rw [trapped] at returned
    cases returned

end Sulfur.Stdlib
