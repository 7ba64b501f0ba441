import Sulfur.Library.Word

/-!
# Words in registers and memory

A part of a register is a field of its bits.  A memory is a map from addresses to
bytes, and a word in it stands with its low byte first.  The flags of a comparison
tell the order of the two words, with and without sign.
-/

namespace Sulfur.Machine

/-! ## Fields of a word -/

section Fields

variable {n w v start : Nat}

/-- The word with a field of its bits replaced. -/
def insertField (word : BitVec n) (start : Nat) (field : BitVec w) : BitVec n :=
  word &&& ~~~((BitVec.allOnes w).setWidth n <<< start) ||| field.setWidth n <<< start

theorem getLsbD_insertField (word : BitVec n) (start : Nat) (field : BitVec w)
    {bit : Nat} (inside : bit < n) :
    (insertField word start field).getLsbD bit =
      if start ≤ bit ∧ bit < start + w then field.getLsbD (bit - start)
      else word.getLsbD bit := by
  by_cases inField : start ≤ bit ∧ bit < start + w
  · have low : ¬bit < start := by omega
    have inRange : bit - start < w ∧ bit - start < n := by omega
    rw [if_pos inField]
    simp [insertField, inside, low, inRange]
  · rw [if_neg inField]
    by_cases low : bit < start
    · simp [insertField, inside, low]
    · have above : ¬bit - start < w := by omega
      simp [insertField, inside, low, BitVec.getLsbD_of_ge _ _ (not_lt.mp above)]

/-- The low bits of a field that was replaced are those of the new field. -/
theorem extractLsb'_insertField (word : BitVec n) (field : BitVec w)
    (fits : start + w ≤ n) (narrower : v ≤ w) :
    (insertField word start field).extractLsb' start v = field.setWidth v := by
  apply BitVec.eq_of_getLsbD_eq
  intro bit inside
  have inWord : start + bit < n := by omega
  have inField : start ≤ start + bit ∧ start + bit < start + w := by omega
  rw [BitVec.getLsbD_extractLsb', getLsbD_insertField _ _ _ inWord, if_pos inField,
    BitVec.getLsbD_setWidth, Nat.add_sub_cancel_left]

/-- The other bits are kept. -/
theorem extractLsb'_insertField_of_apart (word : BitVec n) (field : BitVec w)
    {other : Nat} (fits : other + v ≤ n) (apart : other + v ≤ start ∨ start + w ≤ other) :
    (insertField word start field).extractLsb' other v = word.extractLsb' other v := by
  apply BitVec.eq_of_getLsbD_eq
  intro bit inside
  have inWord : other + bit < n := by omega
  have outside : ¬(start ≤ other + bit ∧ other + bit < start + w) := by omega
  rw [BitVec.getLsbD_extractLsb', BitVec.getLsbD_extractLsb',
    getLsbD_insertField _ _ _ inWord, if_neg outside]

/-- A low part of the word with a new lowest field is one word exactly when the part above
the field agrees with it. -/
theorem extractLsb'_insertField_eq_iff (word : BitVec n) {target : BitVec v} (fits : v ≤ n) :
    (insertField word 0 (target.setWidth w)).extractLsb' 0 v = target ↔
      ∀ bit, w ≤ bit → bit < v → word.getLsbD bit = target.getLsbD bit := by
  have part (bit : Nat) (inside : bit < v) :
      ((insertField word 0 (target.setWidth w)).extractLsb' 0 v).getLsbD bit =
        if bit < w then target.getLsbD bit else word.getLsbD bit := by
    have inWord : 0 + bit < n := by omega
    rw [BitVec.getLsbD_extractLsb', getLsbD_insertField _ _ _ inWord]
    by_cases low : bit < w
    · simp [inside, low]
    · simp [inside, low]
  constructor
  · intro same bit above inside
    have here := part bit inside
    rw [same, if_neg (not_lt.mpr above)] at here
    exact here.symm
  · intro agree
    apply BitVec.eq_of_getLsbD_eq
    intro bit inside
    rw [part bit inside]
    split
    · rfl
    · rename_i above
      exact agree bit (not_lt.mp above) inside

/-- A field as wide as the word is the word. -/
theorem insertField_whole (word field : BitVec n) : insertField word 0 field = field := by
  apply BitVec.eq_of_getLsbD_eq
  intro bit inside
  have inField : 0 ≤ bit ∧ bit < 0 + n := by omega
  rw [getLsbD_insertField _ _ _ inside, if_pos inField, Nat.sub_zero]

end Fields

/-! ## The bits of an integer in a wider word -/

/-- Above the width of its format an integer has the bits of its sign. -/
theorem getLsbD_ofInt_of_inRange {format : Word.Format} {value : Int}
    (range : format.InRange value) {v bit : Nat} (above : format.width ≤ bit)
    (inside : bit < v) :
    (BitVec.ofInt v value).getLsbD bit = decide (value < 0) := by
  have le : format.width ≤ v := above.trans inside.le
  rw [Word.Format.ofInt_of_inRange le range]
  rcases format with ⟨isSigned, w⟩
  cases isSigned with
  | false =>
      have nonneg : ¬value < 0 := not_lt.mpr (Word.Format.inRange_unsigned_iff.mp range).1
      simp [Word.Format.extend, nonneg, BitVec.getLsbD_of_ge _ _ above]
  | true =>
      have own := Word.Format.wrap_of_inRange range
      have outside : ¬bit < w := not_lt.mpr above
      rw [Word.Format.extend, if_pos rfl, BitVec.getLsbD_signExtend, if_neg outside,
        decide_eq_true inside, Bool.true_and, BitVec.msb_eq_toInt]
      have value_eq : (BitVec.ofInt w value).toInt = value := own
      rw [value_eq]

/-! ## Shifted integers -/

theorem ofInt_shiftLeft (w : Nat) (value : Int) (amount : Nat) :
    BitVec.ofInt w (value * 2 ^ amount) = BitVec.ofInt w value <<< amount := by
  have power : BitVec.ofInt w (2 ^ amount) = BitVec.twoPow w amount := by
    apply BitVec.eq_of_toNat_eq
    rw [BitVec.toNat_ofInt, BitVec.toNat_twoPow]
    norm_cast
  rw [BitVec.shiftLeft_eq_mul_twoPow, BitVec.ofInt_mul, power]

/-- A quotient by a power of two is an arithmetic or a logical shift. -/
theorem ofInt_shiftRight (isSigned : Bool) {w : Nat} (word : BitVec w) (amount : Nat) :
    BitVec.ofInt w (Word.Format.ofBits ⟨isSigned, w⟩ word / 2 ^ amount) =
      if isSigned then word.sshiftRight amount else word >>> amount := by
  cases isSigned with
  | true =>
      rw [if_pos rfl, BitVec.sshiftRight, Int.shiftRight_eq_div_pow]
      simp [Word.Format.ofBits]
  | false =>
      have quotient : (word.toNat : Int) / 2 ^ amount = (word.toNat / 2 ^ amount : Nat) := by
        norm_cast
      have small := (Nat.div_le_self word.toNat (2 ^ amount)).trans_lt word.isLt
      rw [if_neg Bool.false_ne_true]
      change BitVec.ofInt w ((word.toNat : Int) / 2 ^ amount) = _
      rw [quotient, BitVec.ofInt_natCast]
      apply BitVec.eq_of_toNat_eq
      rw [BitVec.toNat_ofNat, BitVec.toNat_ushiftRight, Nat.shiftRight_eq_div_pow,
        Nat.mod_eq_of_lt small]

/-! ## Bytes in memory -/

/-- A memory of bytes with addresses of the given width. -/
abbrev Memory (a : Nat) := BitVec a → BitVec 8

/-- The byte belongs to the word of that width at that address. -/
def Covers {a : Nat} (address : BitVec a) (width : Nat) (byte : BitVec a) : Prop :=
  8 * (byte - address).toNat < width

instance {a : Nat} (address : BitVec a) (width : Nat) (byte : BitVec a) :
    Decidable (Covers address width byte) := by
  unfold Covers
  infer_instance

/-- The two words have no byte in common. -/
def Apart {a : Nat} (first : BitVec a) (firstWidth : Nat) (second : BitVec a)
    (secondWidth : Nat) : Prop :=
  ∀ byte, Covers first firstWidth byte → ¬Covers second secondWidth byte

theorem Apart.symm {a : Nat} {first second : BitVec a} {firstWidth secondWidth : Nat}
    (apart : Apart first firstWidth second secondWidth) :
    Apart second secondWidth first firstWidth :=
  fun byte inSecond inFirst => apart byte inFirst inSecond

/-- A word inside of a region, both at offsets from one address. -/
theorem Covers.widen {a : Nat} {base byte : BitVec a} {first second : Int} {w v : Nat}
    (covers : Covers (base + BitVec.ofInt a first) w byte)
    (inside : second ≤ first) (within : 8 * (first - second) + w ≤ v) :
    Covers (base + BitVec.ofInt a second) v byte := by
  unfold Covers at covers ⊢
  have distance : byte - (base + BitVec.ofInt a second) =
      byte - (base + BitVec.ofInt a first) + BitVec.ofNat a (first - second).toNat := by
    have shift : BitVec.ofNat a (first - second).toNat =
        BitVec.ofInt a first - BitVec.ofInt a second := by
      rw [← BitVec.ofInt_natCast, Int.toNat_of_nonneg (by omega), Int.sub_eq_add_neg,
        BitVec.ofInt_add, BitVec.ofInt_neg, BitVec.sub_eq_add_neg]
    rw [shift]
    grind
  have sum := BitVec.toNat_add (byte - (base + BitVec.ofInt a first))
    (BitVec.ofNat a (first - second).toNat)
  have least := Nat.mod_le ((byte - (base + BitVec.ofInt a first)).toNat +
    (BitVec.ofNat a (first - second).toNat).toNat) (2 ^ a)
  have shift := Nat.mod_le (first - second).toNat (2 ^ a)
  rw [← BitVec.toNat_ofNat] at shift
  rw [distance]
  omega

/-- A byte of a word is at or above its address, when the word does not wrap around. -/
theorem Covers.le {a : Nat} {address byte : BitVec a} {w : Nat} (covers : Covers address w byte)
    (fits : 8 * address.toNat + w ≤ 8 * 2 ^ a) :
    address.toNat ≤ byte.toNat ∧ 8 * byte.toNat < 8 * address.toNat + w := by
  unfold Covers at covers
  have sum := BitVec.toNat_add (byte - address) address
  rw [BitVec.sub_add_cancel, Nat.mod_eq_of_lt (by omega)] at sum
  omega

/-- Words at two offsets from one address, the first of which ends before the second
starts, and the second before the first starts again. -/
theorem apart_of_offsets {a : Nat} (base : BitVec a) {first second : Int}
    {firstWidth secondWidth : Nat} (before : 8 * first + firstWidth ≤ 8 * second)
    (noWrap : 8 * second + secondWidth ≤ 8 * (first + 2 ^ a)) :
    Apart (base + BitVec.ofInt a first) firstWidth (base + BitVec.ofInt a second)
      secondWidth := by
  intro byte inFirst inSecond
  unfold Covers at inFirst inSecond
  have offsets (offset : Int) : byte =
      base + BitVec.ofInt a (offset + (byte - (base + BitVec.ofInt a offset)).toNat) := by
    rw [BitVec.ofInt_add, ← BitVec.add_assoc, BitVec.ofInt_natCast, BitVec.ofNat_toNat,
      BitVec.setWidth_eq, BitVec.add_comm, BitVec.sub_add_cancel]
  have same := (offsets first).symm.trans (offsets second)
  rw [BitVec.add_right_inj] at same
  have residues := Word.ofInt_eq_ofInt_iff.mp same
  obtain ⟨turns, difference⟩ := Int.ModEq.dvd (n := 2 ^ a) residues
  have positive : (0 : Int) < 2 ^ a := by positivity
  have bounds : 0 < 2 ^ a * turns ∧ 2 ^ a * turns < 2 ^ a * 1 := by
    rw [← difference]
    omega
  have low : 0 < turns := pos_of_mul_pos_right bounds.1 positive.le
  have high : turns < 1 := lt_of_mul_lt_mul_left bounds.2 positive.le
  omega

namespace Memory

variable {a w v : Nat}

/-- The first bytes at an address, the first one lowest. -/
def loadBytes (memory : Memory a) (address : BitVec a) (width : Nat) :
    Nat → BitVec width
  | 0 => 0
  | count + 1 =>
      loadBytes memory address width count |||
        (memory (address + BitVec.ofNat a count)).setWidth width <<< (8 * count)

/-- The word at an address. -/
def load (memory : Memory a) (address : BitVec a) (width : Nat) : BitVec width :=
  loadBytes memory address width ((width + 7) / 8)

/-- Write the bytes of a word, the least one first. -/
def store (memory : Memory a) (address : BitVec a) (word : BitVec w) : Memory a := fun byte =>
  if Covers address w byte then
    word.extractLsb' (8 * (byte - address).toNat) 8
  else
    memory byte

theorem getLsbD_loadBytes (memory : Memory a) (address : BitVec a) (count : Nat)
    {bit : Nat} (inside : bit < w) :
    (loadBytes memory address w count).getLsbD bit =
      (decide (bit < 8 * count) &&
        (memory (address + BitVec.ofNat a (bit / 8))).getLsbD (bit % 8)) := by
  induction count with
  | zero => simp [loadBytes]
  | succ count inductionHypothesis =>
      rw [loadBytes, BitVec.getLsbD_or, inductionHypothesis]
      rcases Nat.lt_trichotomy (bit / 8) count with before | here | after
      · have low : bit < 8 * count := by omega
        have more : bit < 8 * (count + 1) := by omega
        simp [low, more]
      · have low : ¬bit < 8 * count := by omega
        have more : bit < 8 * (count + 1) := by omega
        have index : bit - 8 * count = bit % 8 := by omega
        simp [low, more, inside, index, here]
      · have low : ¬bit < 8 * count := by omega
        have more : ¬bit < 8 * (count + 1) := by omega
        have above : 8 ≤ bit - 8 * count := by omega
        simp [low, more, BitVec.getLsbD_of_ge _ _ above]

theorem getLsbD_load (memory : Memory a) (address : BitVec a) {bit : Nat}
    (inside : bit < w) :
    (memory.load address w).getLsbD bit =
      (memory (address + BitVec.ofNat a (bit / 8))).getLsbD (bit % 8) := by
  have covered : bit < 8 * ((w + 7) / 8) := by omega
  rw [load, getLsbD_loadBytes _ _ _ inside, decide_eq_true covered, Bool.true_and]

/-- The low part of a word is at the same address. -/
theorem load_of_le (memory : Memory a) (address : BitVec a) (narrower : v ≤ w) :
    memory.load address v = (memory.load address w).setWidth v := by
  apply BitVec.eq_of_getLsbD_eq
  intro bit inside
  rw [getLsbD_load _ _ inside, BitVec.getLsbD_setWidth,
    getLsbD_load _ _ (Nat.lt_of_lt_of_le inside narrower)]
  simp [inside]

variable {memory : Memory a} {address : BitVec a}

theorem store_of_not_covers {word : BitVec w} {byte : BitVec a}
    (outside : ¬Covers address w byte) : memory.store address word byte = memory byte :=
  if_neg outside

/-- A word is the same in memories with the same bytes. -/
theorem load_congr {other : Memory a}
    (same : ∀ byte, Covers address w byte → other byte = memory byte) :
    other.load address w = memory.load address w := by
  apply BitVec.eq_of_getLsbD_eq
  intro bit inside
  rw [getLsbD_load _ _ inside, getLsbD_load _ _ inside]
  rw [same]
  have small := Nat.mod_le (bit / 8) (2 ^ a)
  rw [Covers, BitVec.add_comm, BitVec.add_sub_cancel, BitVec.toNat_ofNat]
  omega

/-- What was stored is loaded again. -/
theorem load_store (word : BitVec w) (fits : w ≤ 8 * 2 ^ a) :
    (memory.store address word).load address w = word := by
  apply BitVec.eq_of_getLsbD_eq
  intro bit inside
  have index : (address + BitVec.ofNat a (bit / 8) - address).toNat = bit / 8 := by
    rw [BitVec.add_comm, BitVec.add_sub_cancel, BitVec.toNat_ofNat]
    exact Nat.mod_eq_of_lt (by omega)
  have covers : Covers address w (address + BitVec.ofNat a (bit / 8)) := by
    rw [Covers, index]
    omega
  have inByte : bit % 8 < 8 := Nat.mod_lt _ (by decide)
  rw [getLsbD_load _ _ inside, store, if_pos covers, BitVec.getLsbD_extractLsb', index]
  simp [inByte, Nat.div_add_mod]

end Memory

/-! ## The flags of a comparison -/

/-- The flags that `cmp` sets. -/
structure Flags where
  zero : Bool
  sign : Bool
  carry : Bool
  overflow : Bool
  deriving DecidableEq, Repr

namespace Flags

variable {w : Nat}

/-- The flags of a difference. -/
def ofSub (x y : BitVec w) : Flags where
  zero := x - y = 0#w
  sign := (x - y).msb
  carry := x.ult y
  overflow := x.ssubOverflow y

@[simp]
theorem zero_ofSub (x y : BitVec w) : (ofSub x y).zero = decide (x = y) := by
  simp [ofSub, BitVec.sub_eq_iff_eq_add]

@[simp]
theorem carry_ofSub (x y : BitVec w) : (ofSub x y).carry = decide (x.toNat < y.toNat) :=
  rfl

/-- The sign of the difference is wrong exactly when it overflows. -/
@[simp]
theorem sign_ne_overflow_ofSub (x y : BitVec w) :
    ((ofSub x y).sign != (ofSub x y).overflow) = decide (x.toInt < y.toInt) := by
  unfold ofSub
  dsimp only
  cases overflows : x.ssubOverflow y with
  | false =>
      have exact_ : (x - y).toInt = x.toInt - y.toInt :=
        BitVec.toInt_sub_of_not_ssubOverflow (by simp [overflows])
      rw [BitVec.msb_eq_toInt, exact_, Bool.bne_false]
      exact decide_eq_decide.mpr sub_neg
  | true =>
      rw [BitVec.ssubOverflow_eq] at overflows
      simp only [Bool.or_eq_true, Bool.and_eq_true, Bool.not_eq_true', BitVec.msb_eq_toInt,
        decide_eq_true_eq, decide_eq_false_iff_not] at overflows
      rw [BitVec.msb_eq_toInt]
      -- a difference overflows when the operands have different signs
      rcases overflows with ⟨⟨nonneg, negative⟩, sign⟩ | ⟨⟨negative, nonneg⟩, sign⟩
      · have order : ¬x.toInt < y.toInt := by omega
        rw [decide_eq_true sign, decide_eq_false order]
        rfl
      · have order : x.toInt < y.toInt := by omega
        rw [decide_eq_false sign, decide_eq_true order]
        rfl

end Flags

end Sulfur.Machine
