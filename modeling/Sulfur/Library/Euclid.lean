import Mathlib.Tactic

/-!
# The Euclidean algorithm on signed numbers

A remainder of a truncating division has the sign of the dividend.  The algorithm hands
every number to the next division but one, so that its result has the sign of the first
or of the second number: which one is decided by the number of divisions.
-/

namespace Sulfur.Euclid

/-- How many divisions the algorithm makes. -/
def divisions (m n : Nat) : Nat :=
  if n = 0 then 0 else divisions n (m % n) + 1
termination_by n
decreasing_by exact Nat.mod_lt m (Nat.pos_of_ne_zero ‹_›)

/-- The last remainder that is not zero, by truncating divisions. -/
def lastRemainder (a b : Int) : Int :=
  if b = 0 then a else lastRemainder b (a.tmod b)
termination_by b.natAbs
decreasing_by
  rw [Int.natAbs_tmod]
  exact Nat.mod_lt _ (Int.natAbs_pos.mpr ‹_›)

theorem lastRemainder_of_ne {a b : Int} (nonzero : b ≠ 0) :
    lastRemainder a b = lastRemainder b (a.tmod b) := by
  rw [lastRemainder, if_neg nonzero]

@[simp]
theorem lastRemainder_zero (a : Int) : lastRemainder a 0 = a := by
  rw [lastRemainder, if_pos rfl]

theorem divisions_of_ne {m n : Nat} (nonzero : n ≠ 0) :
    divisions m n = divisions n (m % n) + 1 := by
  rw [divisions, if_neg nonzero]

@[simp]
theorem divisions_zero (m : Nat) : divisions m 0 = 0 := by
  rw [divisions, if_pos rfl]

/-- A truncated remainder has the sign of the dividend. -/
theorem tmod_units (s t : ℤˣ) (m n : Nat) :
    ((s : Int) * m).tmod (t * n) = s * ((m % n : Nat) : Int) := by
  have positive : ((m : Int)).tmod n = ((m % n : Nat) : Int) :=
    (Int.ofNat_tmod m n).symm
  rcases Int.units_eq_one_or t with rfl | rfl
  · rcases Int.units_eq_one_or s with rfl | rfl
    · simpa using positive
    · simpa [Int.neg_tmod] using positive
  · rcases Int.units_eq_one_or s with rfl | rfl
    · simpa [Int.tmod_neg] using positive
    · simpa [Int.neg_tmod, Int.tmod_neg] using positive

/-- The algorithm finds the greatest common divisor, with the sign of the first number
after an even number of divisions and with that of the second after an odd one. -/
theorem lastRemainder_units (s t : ℤˣ) (m n : Nat) :
    lastRemainder (s * m) (t * n) =
      (if Even (divisions m n) then s else t : ℤˣ) * (m.gcd n : Int) := by
  induction n using Nat.strong_induction_on generalizing m s t with
  | h n inductionHypothesis =>
      by_cases zero : n = 0
      · subst zero
        simp
      · have nonzero : (t : Int) * n ≠ 0 :=
          mul_ne_zero t.ne_zero (Int.natCast_ne_zero.mpr zero)
        have less := Nat.mod_lt m (Nat.pos_of_ne_zero zero)
        have sameGcd : n.gcd (m % n) = m.gcd n := by
          rw [Nat.gcd_comm m n, Nat.gcd_rec n m, Nat.gcd_comm]
        rw [lastRemainder_of_ne nonzero, tmod_units, inductionHypothesis _ less, sameGcd,
          divisions_of_ne zero]
        by_cases even : Even (divisions n (m % n))
        · rw [if_pos even, if_neg (Nat.not_even_iff_odd.mpr even.add_one)]
        · rw [if_neg even, if_pos (Nat.not_even_iff_odd.mp even).add_one]

end Sulfur.Euclid
