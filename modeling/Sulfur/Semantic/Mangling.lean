import Sulfur.Frontend.Lexeme
import Sulfur.Library.Code
import Sulfur.Utils.Text

/-!
# Link names of modules

The link name of a function of a module is made of the parts of the path and the name of
the function, each after its length.  An identifier never begins with a digit, so that the
parts are found again.
-/

namespace Sulfur

/-- The path of a module: its directories and its name, with the extension of a source
file. -/
def modulePathOf (parts : List String) : String :=
  "/".intercalate parts ++ ".slfr"

/-- Identifiers that are joined by slashes, with the extension. -/
def IsModulePath (path : String) : Prop :=
  ∃ parts, parts ≠ [] ∧ (∀ part ∈ parts, IsIdentText part.toList) ∧ path = modulePathOf parts

namespace IsIdentText

variable {text : List Char}

theorem ne_nil (ident : IsIdentText text) : text ≠ [] := by
  rintro rfl
  rcases ident.start with ⟨c, isHead, -⟩
  cases isHead

theorem not_mem (ident : IsIdentText text) {mark : Char} (noChar : isIdentChar mark = false) :
    mark ∉ text := by
  intro inText
  rw [ident.chars mark inText] at noChar
  cases noChar

/-- No identifier begins with a digit. -/
theorem start_not_digit (ident : IsIdentText text) : ∃ c ∈ text.head?, c.isDigit = false := by
  rcases ident.start with ⟨c, isHead, starts⟩
  exact ⟨c, isHead, Bool.eq_false_iff.mpr (isIdentStart_not_isDigit starts)⟩

end IsIdentText

/-- The parts are delimited by their lengths. -/
theorem identifiers_selfDelimiting :
    Code.SelfDelimiting {text | ∃ c ∈ text.head?, c.isDigit = false}
      (Code.frame (Nat.toDigits 10)) :=
  Code.frame_selfDelimiting (fun _ _ => toDigits_injective) fun _ _ inDigits =>
    Nat.isDigit_of_mem_toDigits (by decide) (by decide) inDigits

/-- The extension is cut off at its dot. -/
theorem withoutExtension_append {path extension : List Char} (noDot : '.' ∉ extension)
    (noSlash : '/' ∉ extension) : withoutExtension (path ++ '.' :: extension) = path := by
  have run : (path ++ '.' :: extension).reverse.takeWhile (fun c => c ≠ '.' && c ≠ '/') =
      extension.reverse := by
    rw [List.reverse_append, List.reverse_cons, List.append_assoc,
      List.takeWhile_append_of_pos]
    · simp
    · intro c isExtension
      rw [List.mem_reverse] at isExtension
      have notDot : c ≠ '.' := fun isDot => noDot (isDot ▸ isExtension)
      have notSlash : c ≠ '/' := fun isSlash => noSlash (isSlash ▸ isExtension)
      simp [notDot, notSlash]
  have before : (path ++ '.' :: extension).take
      ((path ++ '.' :: extension).length - extension.length) = path ++ ['.'] := by
    rw [List.append_cons, List.length_append, Nat.add_sub_cancel, List.take_left]
  simp only [withoutExtension, run, List.length_reverse, before]
  simp

/-- The prefix lists the parts that are not empty, each after its length. -/
theorem toList_mangleModulePrefix (modulePath : String) :
    (mangleModulePrefix modulePath).toList =
      "_SF".toList ++ (((withoutExtension modulePath.toList).splitOn '/').filter
        (!·.isEmpty)).flatMap (Code.frame (Nat.toDigits 10)) := by
  have loop (parts : List (List Char)) (out : String) :
      (parts.foldl (fun out part => if part.isEmpty then out
        else out ++ toString part.length ++ String.ofList part) out).toList =
        out.toList ++ (parts.filter (!·.isEmpty)).flatMap (Code.frame (Nat.toDigits 10)) := by
    induction parts generalizing out with
    | nil => simp
    | cons part parts inductionHypothesis =>
        rw [List.foldl_cons, inductionHypothesis]
        cases part with
        | nil => simp
        | cons c part => simp [Code.frame, Nat.toString_eq_repr, Nat.toList_repr]
  exact loop _ "_SF"

/-- A path of identifiers is taken apart at its slashes. -/
theorem mangleModulePrefix_modulePathOf {parts : List String} (some_ : parts ≠ [])
    (idents : ∀ part ∈ parts, IsIdentText part.toList) :
    (mangleModulePrefix (modulePathOf parts)).toList =
      "_SF".toList ++ (parts.map String.toList).flatMap (Code.frame (Nat.toDigits 10)) := by
  have splits : (withoutExtension (modulePathOf parts).toList).splitOn '/' =
      parts.map String.toList := by
    have texts : (modulePathOf parts).toList =
        ['/'].intercalate (parts.map String.toList) ++ '.' :: ['s', 'l', 'f', 'r'] := by
      simp [modulePathOf, String.toList_intercalate]
    rw [texts, withoutExtension_append (by decide) (by decide)]
    apply List.splitOn_intercalate
    · intro text isPart
      rcases List.mem_map.mp isPart with ⟨part, isOwnPart, rfl⟩
      exact (idents part isOwnPart).not_mem rfl
    · exact fun noParts => some_ (List.map_eq_nil_iff.mp noParts)
  have keeps : (parts.map String.toList).filter (!·.isEmpty) = parts.map String.toList := by
    rw [List.filter_eq_self]
    intro text isPart
    rcases List.mem_map.mp isPart with ⟨part, isOwnPart, rfl⟩
    have nonempty := (idents part isOwnPart).ne_nil
    simpa using nonempty
  rw [toList_mangleModulePrefix, splits, keeps]

/-- The link name lists the parts of the path and the name. -/
theorem toList_linkName {parts : List String} (nonempty : parts ≠ [])
    (idents : ∀ part ∈ parts, IsIdentText part.toList) (name : String) :
    (mangleFunction (some (mangleModulePrefix (modulePathOf parts))) name false).toList =
      "_SF".toList ++
        ((parts ++ [name]).map String.toList).flatMap (Code.frame (Nat.toDigits 10)) := by
  rw [List.map_append, List.flatMap_append, ← List.append_assoc,
    ← mangleModulePrefix_modulePathOf nonempty idents]
  simp only [mangleFunction, Bool.false_eq_true, if_false, String.toList_append,
    Nat.toString_eq_repr, Nat.toList_repr, List.map_singleton, List.flatMap_singleton,
    Code.frame, String.length_toList, List.append_assoc]

theorem idents_delimited {parts : List String}
    (idents : ∀ part ∈ parts, IsIdentText part.toList) :
    ∀ text ∈ parts.map String.toList, ∃ c ∈ text.head?, c.isDigit = false := by
  intro text isText
  rcases List.mem_map.mp isText with ⟨part, isPart, rfl⟩
  exact (idents part isPart).start_not_digit

/-- Functions of modules have the same link name only if both the modules and the functions
are the same. -/
theorem mangling_injective {path otherPath name otherName : String}
    (isPath : IsModulePath path) (isOtherPath : IsModulePath otherPath)
    (ident : IsIdentText name.toList) (otherIdent : IsIdentText otherName.toList)
    (equal : mangleFunction (some (mangleModulePrefix path)) name false =
      mangleFunction (some (mangleModulePrefix otherPath)) otherName false) :
    path = otherPath ∧ name = otherName := by
  rcases isPath with ⟨parts, nonempty, idents, rfl⟩
  rcases isOtherPath with ⟨otherParts, otherNonempty, otherIdents, rfl⟩
  have allIdents : ∀ part ∈ parts ++ [name], IsIdentText part.toList :=
    List.forall_mem_append.mpr ⟨idents, by simpa using ident⟩
  have allOtherIdents : ∀ part ∈ otherParts ++ [otherName], IsIdentText part.toList :=
    List.forall_mem_append.mpr ⟨otherIdents, by simpa using otherIdent⟩
  have lists := congrArg String.toList equal
  rw [toList_linkName nonempty idents, toList_linkName otherNonempty otherIdents] at lists
  have sameTexts := identifiers_selfDelimiting.flatMap_injective (idents_delimited allIdents)
    (idents_delimited allOtherIdents) (List.append_cancel_left lists)
  have sameParts := List.map_injective_iff.mpr (fun _ _ => String.toList_inj.mp) sameTexts
  rcases List.append_inj' sameParts rfl with ⟨rfl, sameName⟩
  exact ⟨rfl, List.singleton_inj.mp sameName⟩

theorem mangling_injective_gcd :
    modulePathOf ["std", "math", "arith"] = "std/math/arith.slfr" ∧ "gcd" = "gcd" := by
  have idents : ∀ part ∈ ["std", "math", "arith"], IsIdentText part.toList := by
    rintro part isPart
    rcases List.mem_cons.mp isPart with rfl | isPart
    · exact ⟨⟨'s', rfl, rfl⟩, List.all_eq_true.mp (by decide)⟩
    rcases List.mem_cons.mp isPart with rfl | isPart
    · exact ⟨⟨'m', rfl, rfl⟩, List.all_eq_true.mp (by decide)⟩
    · rw [List.mem_singleton.mp isPart]
      exact ⟨⟨'a', rfl, rfl⟩, List.all_eq_true.mp (by decide)⟩
  have isPath : IsModulePath "std/math/arith.slfr" :=
    ⟨["std", "math", "arith"], by decide, idents, by decide⟩
  have ident : IsIdentText "gcd".toList := ⟨⟨'g', rfl, rfl⟩, List.all_eq_true.mp (by decide)⟩
  exact mangling_injective ⟨_, by decide, idents, rfl⟩ isPath ident ident (by decide)

/-- A directory that begins with a digit would be taken for a part of the length. -/
example : mangleModulePrefix "1a/xxxxxxxxxxxxxxxxxx.slfr" =
    mangleModulePrefix "a18xxxxxxxxxxxxxxxxxx.slfr" := by
  decide

end Sulfur
