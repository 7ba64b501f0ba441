import Mathlib.Tactic

/-!
# Fixed-width integers as wrapped integers

A format is a signedness together with a bit width.  Wrapping reduces an
unbounded integer to the representative that the format stores; a value in
range is its own representative.  The bit pattern of a value is the
corresponding `BitVec`, and two integers have one pattern exactly when they
wrap alike.
-/

namespace Sulfur.Word

/-- The layout of a machine integer. -/
structure Format where
  signed : Bool
  width : Nat
  deriving DecidableEq, Repr

/-- Two integers have one bit pattern exactly when they agree modulo `2 ^ w`. -/
theorem ofInt_eq_ofInt_iff {w : Nat} {first second : Int} :
    BitVec.ofInt w first = BitVec.ofInt w second ↔
      first % 2 ^ w = second % 2 ^ w := by
  have positive : (0 : Int) < 2 ^ w := by positivity
  have firstNonneg := Int.emod_nonneg first positive.ne'
  have secondNonneg := Int.emod_nonneg second positive.ne'
  rw [← BitVec.toNat_inj, BitVec.toNat_ofInt, BitVec.toNat_ofInt]
  push_cast
  omega

namespace Format

/-- The values a format represents.  The bounds are doubled so that width zero
needs no case of its own. -/
def InRange (format : Format) (value : Int) : Prop :=
  if format.signed then
    -2 ^ format.width ≤ 2 * value ∧ 2 * value < 2 ^ format.width
  else
    0 ≤ value ∧ value < 2 ^ format.width

instance (format : Format) (value : Int) : Decidable (format.InRange value) := by
  unfold InRange
  infer_instance

theorem inRange_signed_iff {width : Nat} {value : Int} :
    InRange ⟨true, width⟩ value ↔ -2 ^ width ≤ 2 * value ∧ 2 * value < 2 ^ width :=
  Iff.rfl

theorem inRange_unsigned_iff {width : Nat} {value : Int} :
    InRange ⟨false, width⟩ value ↔ 0 ≤ value ∧ value < 2 ^ width :=
  Iff.rfl

/-- The integer that a bit pattern denotes. -/
def ofBits (format : Format) (bits : BitVec format.width) : Int :=
  if format.signed then bits.toInt else bits.toNat

/-- Two's-complement reduction of an integer to a format. -/
def wrap (format : Format) (value : Int) : Int :=
  format.ofBits (BitVec.ofInt format.width value)

/-- Every bit pattern denotes a value in range. -/
theorem ofBits_inRange (format : Format) (bits : BitVec format.width) :
    format.InRange (format.ofBits bits) := by
  unfold InRange ofBits
  split
  · exact ⟨BitVec.le_two_mul_toInt, BitVec.two_mul_toInt_lt⟩
  · have bound := bits.isLt
    constructor
    · exact Int.natCast_nonneg _
    · exact_mod_cast bound

/-- Reduction lands in range. -/
theorem wrap_inRange (format : Format) (value : Int) :
    format.InRange (format.wrap value) :=
  format.ofBits_inRange _

/-- The pattern of a denoted integer is the pattern it came from. -/
@[simp]
theorem ofInt_ofBits (format : Format) (bits : BitVec format.width) :
    BitVec.ofInt format.width (format.ofBits bits) = bits := by
  unfold ofBits
  split
  · exact BitVec.ofInt_toInt
  · simp

/-- Reduction keeps the bit pattern. -/
@[simp]
theorem ofInt_wrap (format : Format) (value : Int) :
    BitVec.ofInt format.width (format.wrap value) =
      BitVec.ofInt format.width value :=
  format.ofInt_ofBits _

/-- Reduction preserves the residue modulo `2 ^ width`. -/
theorem wrap_emod (format : Format) (value : Int) :
    format.wrap value % 2 ^ format.width = value % 2 ^ format.width :=
  ofInt_eq_ofInt_iff.mp (format.ofInt_wrap value)

/-- Integers in range with one residue are equal. -/
theorem eq_of_inRange_of_emod_eq {format : Format} {first second : Int}
    (firstRange : format.InRange first) (secondRange : format.InRange second)
    (residue : first % 2 ^ format.width = second % 2 ^ format.width) :
    first = second := by
  obtain ⟨signed, width⟩ := format
  have positive : (0 : Int) < 2 ^ width := by positivity
  obtain ⟨quotient, difference⟩ :=
    Int.ModEq.dvd (n := 2 ^ width) (a := second) (b := first) residue.symm
  have bound : -2 ^ width < first - second ∧ first - second < 2 ^ width := by
    cases signed
    · rw [inRange_unsigned_iff] at firstRange secondRange
      omega
    · rw [inRange_signed_iff] at firstRange secondRange
      omega
  have zero : quotient = 0 := by
    rw [difference] at bound
    nlinarith [bound.1, bound.2]
  rw [zero] at difference
  omega

/-- A value in range is its own representative. -/
theorem wrap_of_inRange {format : Format} {value : Int}
    (range : format.InRange value) : format.wrap value = value :=
  eq_of_inRange_of_emod_eq (format.wrap_inRange value) range
    (format.wrap_emod value)

@[simp]
theorem wrap_eq_self_iff {format : Format} {value : Int} :
    format.wrap value = value ↔ format.InRange value :=
  ⟨fun equal => equal ▸ format.wrap_inRange value, wrap_of_inRange⟩

/-- Two integers wrap alike exactly when they agree modulo `2 ^ width`. -/
theorem wrap_eq_wrap_iff {format : Format} {first second : Int} :
    format.wrap first = format.wrap second ↔
      first % 2 ^ format.width = second % 2 ^ format.width := by
  constructor
  · intro equal
    rw [← format.wrap_emod first, ← format.wrap_emod second, equal]
  · intro residue
    apply eq_of_inRange_of_emod_eq (format.wrap_inRange _) (format.wrap_inRange _)
    rw [wrap_emod, wrap_emod, residue]

@[simp]
theorem wrap_wrap (format : Format) (value : Int) :
    format.wrap (format.wrap value) = format.wrap value :=
  wrap_of_inRange (format.wrap_inRange value)

/-- A negation forgets an earlier reduction. -/
theorem wrap_neg_wrap (format : Format) (value : Int) :
    format.wrap (-format.wrap value) = format.wrap (-value) :=
  wrap_eq_wrap_iff.mpr (Int.ModEq.neg (format.wrap_emod value))

/-- Reducing to a format no wider forgets an earlier wider reduction. -/
theorem wrap_wrap_of_le {narrow wide : Format} (le : narrow.width ≤ wide.width)
    (value : Int) : narrow.wrap (wide.wrap value) = narrow.wrap value := by
  rw [wrap_eq_wrap_iff]
  have divides : (2 : Int) ^ narrow.width ∣ 2 ^ wide.width := pow_dvd_pow 2 le
  rw [← Int.emod_emod_of_dvd (wide.wrap value) divides, wrap_emod,
    Int.emod_emod_of_dvd value divides]

/-- The low part of the pattern of an integer. -/
theorem setWidth_ofInt {w v : Nat} (le : v ≤ w) (value : Int) :
    (BitVec.ofInt w value).setWidth v = BitVec.ofInt v value := by
  have same := @wrap_wrap_of_le ⟨true, v⟩ ⟨true, w⟩ le value
  rw [← BitVec.signExtend_eq_setWidth_of_le _ le]
  exact ofInt_eq_ofInt_iff.mpr (wrap_eq_wrap_iff.mp same)

/-- A format represents every value of a narrower format of its signedness. -/
theorem InRange.widen {narrow wide : Format} {value : Int}
    (range : narrow.InRange value) (sameSign : narrow.signed = wide.signed)
    (le : narrow.width ≤ wide.width) : wide.InRange value := by
  obtain ⟨signed, narrowWidth⟩ := narrow
  obtain ⟨wideSigned, wideWidth⟩ := wide
  obtain rfl : signed = wideSigned := sameSign
  have grows : (2 : Int) ^ narrowWidth ≤ 2 ^ wideWidth :=
    pow_le_pow_right₀ (by norm_num) le
  cases signed
  · rw [inRange_unsigned_iff] at *
    omega
  · rw [inRange_signed_iff] at *
    omega

/-- Wrapping to a narrower format changes nothing exactly when the wide
representative already fits. -/
theorem wrap_eq_wrap_of_le_iff {narrow wide : Format} {value : Int}
    (signed : narrow.signed = wide.signed) (le : narrow.width ≤ wide.width) :
    wide.wrap value = wide.wrap (narrow.wrap value) ↔
      narrow.InRange (wide.wrap value) := by
  have fits : wide.InRange (narrow.wrap value) :=
    (narrow.wrap_inRange value).widen signed le
  rw [wrap_of_inRange fits]
  constructor
  · intro equal
    rw [equal]
    exact narrow.wrap_inRange value
  · intro range
    rw [← wrap_wrap_of_le le, wrap_of_inRange range]

/-- A right shift stays in range. -/
theorem InRange.shiftRight {format : Format} {value : Int}
    (range : format.InRange value) (amount : Nat) :
    format.InRange (value / 2 ^ amount) := by
  obtain ⟨signed, width⟩ := format
  have positive : (0 : Int) < 2 ^ amount := by positivity
  have bounds : min value 0 ≤ value / 2 ^ amount ∧
      value / 2 ^ amount ≤ max value 0 := by
    rcases le_or_gt 0 value with nonneg | negative
    · rw [min_eq_right nonneg, max_eq_left nonneg]
      exact ⟨Int.ediv_nonneg nonneg positive.le, Int.ediv_le_self _ nonneg⟩
    · rw [min_eq_left negative.le, max_eq_right negative.le]
      refine ⟨Int.le_ediv_of_mul_le positive ?_, ?_⟩
      · nlinarith
      · exact (Int.ediv_neg_of_neg_of_pos negative positive).le
  have large : (0 : Int) < 2 ^ width := by positivity
  cases signed
  · rw [inRange_unsigned_iff] at *
    omega
  · rw [inRange_signed_iff] at *
    omega

/-! ## Extension to a wider format -/

/-- The pattern of a value in a wider word: sign extension or zero extension. -/
def extend (format : Format) (width : Nat) (bits : BitVec format.width) :
    BitVec width :=
  if format.signed then bits.signExtend width else bits.setWidth width

/-- The low part of an extended pattern is the pattern. -/
@[simp]
theorem setWidth_extend (format : Format) {width : Nat} (le : format.width ≤ width)
    (bits : BitVec format.width) : (format.extend width bits).setWidth format.width = bits := by
  unfold extend
  apply BitVec.eq_of_getLsbD_eq
  intro bit inside
  have inWide : bit < width := by omega
  split
  · simp [BitVec.getElem_signExtend, inside, inWide]
  · simp [inside, inWide]

/-- Extension keeps the value. -/
theorem ofBits_extend (narrow wide : Format) (signed : narrow.signed = wide.signed)
    (le : narrow.width ≤ wide.width) (bits : BitVec narrow.width) :
    wide.ofBits (narrow.extend wide.width bits) = narrow.ofBits bits := by
  unfold ofBits extend
  rw [← signed]
  split
  · exact BitVec.toInt_signExtend_of_le le
  · rw [BitVec.toNat_setWidth_of_le le]

/-- A value of a narrow format has the extended pattern in a wider word. -/
theorem ofInt_of_inRange {narrow : Format} {width : Nat} (le : narrow.width ≤ width)
    {value : Int} (range : narrow.InRange value) :
    BitVec.ofInt width value =
      narrow.extend width (BitVec.ofInt narrow.width value) := by
  have same := ofBits_extend narrow ⟨narrow.signed, width⟩ rfl le (BitVec.ofInt narrow.width value)
  have value_eq : narrow.ofBits (BitVec.ofInt narrow.width value) = value :=
    wrap_of_inRange range
  rw [value_eq] at same
  calc
    BitVec.ofInt width value =
        BitVec.ofInt width (ofBits ⟨narrow.signed, width⟩
          (narrow.extend width (BitVec.ofInt narrow.width value))) := by rw [same]
    _ = narrow.extend width (BitVec.ofInt narrow.width value) :=
        ofInt_ofBits ⟨narrow.signed, width⟩ _

/-- An operation on the patterns of two integers. -/
def bitwise (format : Format) (op : ∀ w : Nat, BitVec w → BitVec w → BitVec w)
    (first second : Int) : Int :=
  format.ofBits
    (op _ (BitVec.ofInt format.width first) (BitVec.ofInt format.width second))

theorem bitwise_inRange (format : Format)
    (op : ∀ w : Nat, BitVec w → BitVec w → BitVec w) (first second : Int) :
    format.InRange (format.bitwise op first second) :=
  format.ofBits_inRange _

/-- An operation that commutes with extension has one result in both formats. -/
theorem bitwise_widen {narrow wide : Format} (signed : narrow.signed = wide.signed)
    (le : narrow.width ≤ wide.width)
    {op : ∀ w : Nat, BitVec w → BitVec w → BitVec w}
    (commutes : ∀ x y : BitVec narrow.width,
      narrow.extend wide.width (op _ x y) =
        op _ (narrow.extend wide.width x) (narrow.extend wide.width y))
    {first second : Int} (firstRange : narrow.InRange first)
    (secondRange : narrow.InRange second) :
    wide.bitwise op first second = narrow.bitwise op first second := by
  unfold bitwise
  rw [ofInt_of_inRange le firstRange, ofInt_of_inRange le secondRange, ← commutes,
    ofBits_extend _ _ signed le]

theorem extend_and (format : Format) (width : Nat) (x y : BitVec format.width) :
    format.extend width (x &&& y) = format.extend width x &&& format.extend width y := by
  unfold extend
  split <;> simp

theorem extend_or (format : Format) (width : Nat) (x y : BitVec format.width) :
    format.extend width (x ||| y) = format.extend width x ||| format.extend width y := by
  unfold extend
  split <;> simp

theorem extend_xor (format : Format) (width : Nat) (x y : BitVec format.width) :
    format.extend width (x ^^^ y) = format.extend width x ^^^ format.extend width y := by
  unfold extend
  split <;> simp

end Format

end Sulfur.Word
