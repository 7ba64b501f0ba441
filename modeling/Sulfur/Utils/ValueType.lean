import Sulfur.Library.Word

/-!
# Value types

The types of the language as the compiler enumerates them, with the predicates
of `type_utils.c`.  `unresolved` is the mark of a node that has not been
analysed; its width falls into the default branch of the source.
-/

namespace Sulfur

open Word

/-- `sf_value_type`. -/
inductive ValueType
  | unresolved
  | i8 | i16 | i32 | i64
  | u8 | u16 | u32 | u64
  | bool
  | void
  deriving DecidableEq, Repr, Inhabited

namespace ValueType

/-- The largest magnitude an integer literal of the type may have. -/
def uintLiteralFits (type : ValueType) (value : Nat) : Bool :=
  match type with
  | i8 => value ≤ 127
  | i16 => value ≤ 32767
  | i32 => value ≤ 2147483647
  | i64 => value ≤ 9223372036854775807
  | u8 => value ≤ 255
  | u16 => value ≤ 65535
  | u32 => value ≤ 4294967295
  | u64 => true
  | _ => false

/-- The magnitudes that fit a signed type under a unary minus. -/
def signedLiteralFitsNegated (type : ValueType) (magnitude : Nat) : Bool :=
  match type with
  | i8 => magnitude ≤ 127 + 1
  | i16 => magnitude ≤ 32767 + 1
  | i32 => magnitude ≤ 2147483647 + 1
  | i64 => magnitude ≤ 9223372036854775807 + 1
  | _ => false

/-- `sf_type_value_name`. -/
def name : ValueType → String
  | i8 => "i8"
  | i16 => "i16"
  | i32 => "i32"
  | i64 => "i64"
  | u8 => "u8"
  | u16 => "u16"
  | u32 => "u32"
  | u64 => "u64"
  | bool => "bool"
  | void => "void"
  | unresolved => "?"

/-- `sf_type_value_is_unsigned`. -/
def isUnsigned : ValueType → Bool
  | u8 | u16 | u32 | u64 => true
  | _ => false

/-- `sf_type_value_is_signed`. -/
def isSigned : ValueType → Bool
  | i8 | i16 | i32 | i64 => true
  | _ => false

/-- `sf_type_value_is_integer`. -/
def isInteger (type : ValueType) : Bool :=
  type.isSigned || type.isUnsigned

/-- Both unsigned, both signed, or both `bool`. -/
def isSameGroup (a b : ValueType) : Bool :=
  if a.isUnsigned && b.isUnsigned then
    true
  else if a.isSigned && b.isSigned then
    true
  else if a = bool ∧ b = bool then
    true
  else
    false

/-- `sf_type_value_is_castable`. -/
def isCastable (source target : ValueType) : Bool :=
  if source = unresolved ∨ target = unresolved then
    false
  else if source = target then
    true
  else if (source = bool ∨ target = bool) ∨ (source = void ∨ target = void) then
    false
  else
    true

/-- `sf_type_value_width_bits`. -/
def widthBits : ValueType → Nat
  | i8 | u8 | bool => 8
  | i16 | u16 => 16
  | i32 | u32 => 32
  | i64 | u64 => 64
  | void => 0
  | unresolved => 64

/-- `sf_type_value_width_bytes`. -/
def widthBytes (type : ValueType) : Nat :=
  type.widthBits / 8

/-- The wider of two types, the first one on a tie. -/
def promote (a b : ValueType) : ValueType :=
  if a.widthBits ≥ b.widthBits then a else b

/-- The machine format of the values of a type. -/
def format (type : ValueType) : Format :=
  ⟨type.isSigned, type.widthBits⟩

/-- Reduction of an integer to the values of a type. -/
def wrap (type : ValueType) (value : Int) : Int :=
  type.format.wrap value

/-- The values of a type. -/
def InRange (type : ValueType) (value : Int) : Prop :=
  type.format.InRange value

instance (type : ValueType) (value : Int) : Decidable (type.InRange value) :=
  inferInstanceAs (Decidable (type.format.InRange value))

theorem wrap_inRange (type : ValueType) (value : Int) :
    type.InRange (type.wrap value) :=
  type.format.wrap_inRange value

theorem wrap_of_inRange {type : ValueType} {value : Int}
    (range : type.InRange value) : type.wrap value = value :=
  Format.wrap_of_inRange range

@[simp]
theorem wrap_wrap (type : ValueType) (value : Int) :
    type.wrap (type.wrap value) = type.wrap value :=
  type.format.wrap_wrap value

theorem widthBits_eq_widthBytes (type : ValueType) :
    type.widthBits = 8 * type.widthBytes := by
  cases type <;> rfl

/-- Types of one group and one width are the same type. -/
theorem eq_of_isSameGroup_of_widthBits_eq {a b : ValueType}
    (group : a.isSameGroup b) (width : a.widthBits = b.widthBits) : a = b := by
  cases a <;> cases b <;> first | rfl | exact absurd width (by decide) | cases group

theorem isSigned_eq_of_isSameGroup {a b : ValueType} (group : a.isSameGroup b) :
    a.isSigned = b.isSigned := by
  cases a <;> cases b <;> first | rfl | cases group

theorem isInteger_eq_of_isSameGroup {a b : ValueType} (group : a.isSameGroup b) :
    a.isInteger = b.isInteger := by
  cases a <;> cases b <;> first | rfl | cases group

theorem isSameGroup_comm (a b : ValueType) :
    a.isSameGroup b = b.isSameGroup a := by
  cases a <;> cases b <;> rfl

/-- The types of variables and parameters: the integers and `bool`. -/
def IsScalar (type : ValueType) : Prop :=
  type.isInteger ∨ type = bool

theorem IsScalar.ne_unresolved {type : ValueType} (scalar : type.IsScalar) :
    type ≠ unresolved := by
  rintro rfl
  simp [IsScalar, isInteger, isSigned, isUnsigned] at scalar

theorem IsScalar.ne_void {type : ValueType} (scalar : type.IsScalar) :
    type ≠ void := by
  rintro rfl
  simp [IsScalar, isInteger, isSigned, isUnsigned] at scalar

theorem isScalar_of_isSameGroup {a b : ValueType} (group : a.isSameGroup b) :
    a.IsScalar := by
  cases a <;> cases b <;> first | exact Or.inl rfl | exact Or.inr rfl | cases group

theorem isScalar_of_ne {type : ValueType} (known : type ≠ unresolved)
    (value : type ≠ void) : type.IsScalar := by
  cases type <;> first
    | exact Or.inl rfl
    | exact Or.inr rfl
    | exact absurd rfl known
    | exact absurd rfl value

theorem isCastable_of_isSameGroup {a b : ValueType} (group : a.isSameGroup b) :
    a.isCastable b := by
  cases a <;> cases b <;> first | rfl | cases group

theorem promote_eq_or (a b : ValueType) : promote a b = a ∨ promote a b = b := by
  unfold promote
  split <;> simp

theorem isInteger_promote {a b : ValueType} (first : a.isInteger)
    (second : b.isInteger) : (promote a b).isInteger := by
  rcases promote_eq_or a b with chosen | chosen <;> rw [chosen] <;> assumption

theorem widthBits_le_promote_left (a b : ValueType) :
    a.widthBits ≤ (promote a b).widthBits := by
  unfold promote
  split <;> omega

theorem widthBits_le_promote_right (a b : ValueType) :
    b.widthBits ≤ (promote a b).widthBits := by
  unfold promote
  split <;> omega

/-- A literal that fits a type denotes one of its values. -/
theorem inRange_of_uintLiteralFits {type : ValueType} {value : Nat}
    (fits : type.uintLiteralFits value) (bound : value < 2 ^ 64) :
    type.InRange value := by
  cases type <;>
    simp_all [uintLiteralFits, InRange, format, isSigned, widthBits,
      Format.inRange_signed_iff, Format.inRange_unsigned_iff] <;> omega

/-- A magnitude that fits under a unary minus denotes, negated, a value of the
type. -/
theorem inRange_neg_of_signedLiteralFitsNegated {type : ValueType}
    {magnitude : Nat} (fits : type.signedLiteralFitsNegated magnitude) :
    type.InRange (-magnitude) := by
  cases type <;>
    simp_all [signedLiteralFitsNegated, InRange, format, isSigned, widthBits,
      Format.inRange_signed_iff] <;> omega

end ValueType

end Sulfur
