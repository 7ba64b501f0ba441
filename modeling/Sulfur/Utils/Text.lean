import Mathlib.Tactic

/-!
# Names

The string helpers of `string.c` and `mangle.c` that the analyser and the
lowering use.  One `Char` stands for one byte.
-/

namespace Sulfur

/-- `UINT32_MAX`, the distance of strings that are too long to compare. -/
def uint32Max : Nat :=
  4294967295

/-- `SF_STRING_DISTANCE_MAX`. -/
def stringDistanceMax : Nat :=
  256

/-- The inner loop of `sf_string_distance`: one row of the table from the row
before it, given the entry to the left and the entry above that one. -/
def distanceRow (a : Char) (left diagonal : Nat) : List Char → List Nat → List Nat
  | [], _ => []
  | b :: rest, above =>
      let cost := if a = b then 0 else 1
      let up := above.headD 0
      let best := min (diagonal + cost) (min (up + 1) (left + 1))
      best :: distanceRow a best up rest (above.drop 1)

/-- The outer loop of `sf_string_distance`, at the `i`-th character of the first
string. -/
def distanceRows (b : List Char) : Nat → List Char → List Nat → List Nat
  | _, [], previous => previous
  | i, a :: rest, previous =>
      distanceRows b (i + 1) rest
        (i :: distanceRow a i (previous.headD 0) b (previous.drop 1))

/-- `sf_string_distance`. -/
def stringDistance (a b : String) : Nat :=
  if b.length ≥ stringDistanceMax then
    uint32Max
  else
    (distanceRows b.toList 1 a.toList (List.range (b.length + 1))).getLastD 0

/-- The search of `scope_find_closest` and `sf_func_symbol_table_find_closest`:
the first candidate of minimal distance, unless the distance is more than half
of the name. -/
def findClosest (candidates : List String) (name : String) : Option String :=
  let best := candidates.foldl
    (fun best candidate =>
      let distance := stringDistance candidate name
      if distance < best.1 then (distance, some candidate) else best)
    (uint32Max, none)
  if best.1 > name.length / 2 then none else best.2

/-- `sf_mangle_variable`. -/
def mangleVariable (name : String) (id : Nat) : String :=
  name ++ "@" ++ toString id

theorem toDigits_injective {first second : Nat}
    (equal : Nat.toDigits 10 first = Nat.toDigits 10 second) : first = second := by
  rw [← Nat.ofDigitChars_ten_toDigits (n := first), equal,
    Nat.ofDigitChars_ten_toDigits]

/-- A text that ends in a mark and a part without the mark splits there in one
way. -/
theorem append_mark_injective (mark : Char) {a b c d : List Char}
    (equal : a ++ mark :: b = c ++ mark :: d) (inFirst : mark ∉ b)
    (inSecond : mark ∉ d) : a = c ∧ b = d := by
  rcases List.append_eq_append_iff.mp equal with
    ⟨extra, first, second⟩ | ⟨extra, first, second⟩
  · cases extra with
    | nil => simp_all
    | cons head tail =>
        obtain ⟨-, rest⟩ := List.cons_eq_cons.mp second
        simp [rest] at inFirst
  · cases extra with
    | nil => simp_all
    | cons head tail =>
        obtain ⟨-, rest⟩ := List.cons_eq_cons.mp second
        simp [rest] at inSecond

/-- Mangled names are equal for equal names and numbers only. -/
theorem mangleVariable_injective {first second : String} {id otherId : Nat}
    (equal : mangleVariable first id = mangleVariable second otherId) :
    first = second ∧ id = otherId := by
  have notDigit (n : Nat) : '@' ∉ Nat.toDigits 10 n := fun inDigits => by
    have digit := Nat.isDigit_of_mem_toDigits (by omega) (by omega) inDigits
    revert digit
    decide
  have lists := congrArg String.toList equal
  simp only [mangleVariable, String.toList_append, Nat.toString_eq_repr,
    Nat.toList_repr, List.append_assoc] at lists
  obtain ⟨names, digits⟩ := append_mark_injective '@'
    (by simpa using lists) (notDigit id) (notDigit otherId)
  exact ⟨String.toList_inj.mp names, toDigits_injective digits⟩

/-- `sf_mangle_function`. -/
def mangleFunction (modulePrefix : Option String) (name : String)
    (keepName : Bool) : String :=
  match modulePrefix with
  | none => name
  | some modulePrefix =>
      if keepName then name else modulePrefix ++ toString name.length ++ name

theorem length_repr_mono {first second : Nat} (le : first ≤ second) :
    first.repr.length ≤ second.repr.length := by
  rw [Nat.length_repr_le_iff Nat.length_repr_pos]
  apply lt_of_le_of_lt le
  rw [← Nat.length_repr_le_iff Nat.length_repr_pos]

/-- The link names of one file are equal for equal names only. -/
theorem mangleFunction_injective {modulePrefix : Option String} {first second : String}
    (equal : mangleFunction modulePrefix first false =
      mangleFunction modulePrefix second false) : first = second := by
  cases modulePrefix with
  | none => exact equal
  | some modulePrefix =>
      have lists := congrArg String.toList equal
      simp only [mangleFunction, Bool.false_eq_true, if_false, String.toList_append,
        Nat.toString_eq_repr, List.append_assoc, List.append_cancel_left_eq] at lists
      have lengths := congrArg List.length lists
      simp only [List.length_append, String.length_toList] at lengths
      -- The digits of the longer name are not fewer.
      have sameLength : first.length = second.length := by
        rcases Nat.lt_trichotomy first.length second.length with shorter | same | longer
        · have digits := length_repr_mono shorter.le
          omega
        · exact same
        · have digits := length_repr_mono longer.le
          omega
      rw [sameLength, List.append_cancel_left_eq] at lists
      exact String.toList_inj.mp lists

/-- Keeping the name makes a difference in a module only. -/
theorem mangleFunction_keepName_iff {modulePrefix : Option String} {name : String} :
    mangleFunction modulePrefix name true = mangleFunction modulePrefix name false ↔
      modulePrefix = none := by
  cases modulePrefix with
  | none => simp [mangleFunction]
  | some modulePrefix =>
      have digits := Nat.length_repr_pos (n := name.length)
      constructor
      · intro equal
        have lengths := congrArg String.length equal
        simp only [mangleFunction, if_true, Bool.false_eq_true, if_false, String.length_append,
          Nat.toString_eq_repr] at lengths
        omega
      · exact nofun

/-- The characters before the extension: up to the last dot, if no slash
follows it. -/
def withoutExtension (path : List Char) : List Char :=
  let extension := path.reverse.takeWhile fun c => c ≠ '.' && c ≠ '/'
  let before := path.take (path.length - extension.length)
  if before.getLastD ' ' = '.' then before.dropLast else path

/-- `sf_mangle_module_prefix`. -/
def mangleModulePrefix (modulePath : String) : String :=
  let parts := (withoutExtension modulePath.toList).splitOn '/'
  parts.foldl
    (fun out part =>
      if part.isEmpty then out
      else out ++ toString part.length ++ String.ofList part)
    "_SF"

/-- The loop of `sf_module_name_from_path`: the path below the first search
directory that contains the file. -/
def moduleNameFromPath (file : String) (modulePaths : List String) :
    Option String :=
  let withoutDot (path : List Char) : List Char :=
    if ['.', '/'].isPrefixOf path then path.drop 2 else path
  let file := withoutDot file.toList
  modulePaths.findSome? fun dir =>
    let dir := ((withoutDot dir.toList).reverse.dropWhile (· = '/')).reverse
    if !dir.isEmpty && dir.isPrefixOf file &&
        (file.drop dir.length).headD '\x00' = '/' then
      some (String.ofList (file.drop (dir.length + 1)))
    else
      none

end Sulfur
