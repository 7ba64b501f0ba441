import Mathlib.Data.List.TakeWhile
import Mathlib.Tactic

/-!
# Self-delimiting codes

Code words that are written one after the other, with no mark between them, can be told
apart when none of them is a prefix of another one.  A text after its own length is such a
code word, when the text does not begin like a number.
-/

namespace Sulfur.Code

variable {α β : Type*}

/-- No code word is empty, and none is a prefix of another one. -/
structure SelfDelimiting (domain : Set α) (code : α → List β) : Prop where
  nonempty : ∀ item ∈ domain, code item ≠ []
  prefixFree : ∀ first ∈ domain, ∀ second ∈ domain,
    code first <+: code second → first = second

/-- Two sequences with the same code are the same sequence. -/
theorem SelfDelimiting.flatMap_injective {domain : Set α} {code : α → List β}
    (delimits : SelfDelimiting domain code) {first second : List α}
    (firstInside : ∀ item ∈ first, item ∈ domain)
    (secondInside : ∀ item ∈ second, item ∈ domain)
    (equal : first.flatMap code = second.flatMap code) : first = second := by
  induction first generalizing second with
  | nil =>
      cases second with
      | nil => rfl
      | cons other rest =>
          have word := delimits.nonempty other (secondInside other List.mem_cons_self)
          simp [word] at equal
  | cons item rest inductionHypothesis =>
      cases second with
      | nil =>
          have word := delimits.nonempty item (firstInside item List.mem_cons_self)
          simp [word] at equal
      | cons other otherRest =>
          have itemInside := firstInside item List.mem_cons_self
          have otherInside := secondInside other List.mem_cons_self
          rw [List.flatMap_cons, List.flatMap_cons] at equal
          have sameItem : item = other := by
            rcases List.prefix_or_prefix_of_prefix
                (List.prefix_append (code item) _)
                (equal ▸ List.prefix_append (code other) _) with shorter | longer
            · exact delimits.prefixFree item itemInside other otherInside shorter
            · exact (delimits.prefixFree other otherInside item itemInside longer).symm
          subst sameItem
          have sameRest := inductionHypothesis
            (fun item isItem => firstInside item (List.mem_cons_of_mem _ isItem))
            (fun item isItem => secondInside item (List.mem_cons_of_mem _ isItem))
            (List.append_cancel_left equal)
          rw [sameRest]

/-- A run of marked letters ends where the first letter without the mark stands. -/
theorem append_boundary_injective {mark : β → Bool} {a b c d : List β}
    (inFirst : ∀ x ∈ a, mark x) (inSecond : ∀ x ∈ c, mark x)
    (stopsFirst : ∀ x ∈ b.head?, mark x = false) (stopsSecond : ∀ x ∈ d.head?, mark x = false)
    (equal : a ++ b = c ++ d) : a = c ∧ b = d := by
  have noRun {rest : List β} (stops : ∀ x ∈ rest.head?, mark x = false) :
      rest.takeWhile mark = [] := by
    cases rest with
    | nil => rfl
    | cons x rest => simp [stops x rfl]
  have runs := congrArg (List.takeWhile mark) equal
  rw [List.takeWhile_append_of_pos inFirst, List.takeWhile_append_of_pos inSecond,
    noRun stopsFirst, noRun stopsSecond, List.append_nil, List.append_nil] at runs
  subst runs
  exact ⟨rfl, List.append_cancel_left equal⟩

/-- A text after its length. -/
def frame (number : Nat → List β) (text : List β) : List β :=
  number text.length ++ text

/-- Texts after their lengths are self-delimiting, if the letters of a number never begin
a text. -/
theorem frame_selfDelimiting {number : Nat → List β} {mark : β → Bool}
    (injective : ∀ m n, number m = number n → m = n)
    (marked : ∀ n, ∀ x ∈ number n, mark x) :
    SelfDelimiting {text | ∃ x ∈ text.head?, mark x = false} (frame number) := by
  constructor
  · rintro text ⟨x, isHead, -⟩ noFrame
    rw [frame, List.append_eq_nil_iff] at noFrame
    rw [noFrame.2] at isHead
    cases isHead
  · rintro first ⟨x, firstHead, firstStops⟩ second ⟨y, secondHead, secondStops⟩ ⟨rest, equal⟩
    rw [frame, frame, List.append_assoc] at equal
    have firstBoundary : ∀ z ∈ (first ++ rest).head?, mark z = false := by
      intro z isHead
      rw [List.head?_append, Option.mem_def.mp firstHead] at isHead
      cases isHead
      exact firstStops
    have secondBoundary : ∀ z ∈ second.head?, mark z = false := by
      intro z isHead
      rw [Option.mem_def.mp secondHead] at isHead
      cases isHead
      exact secondStops
    have parts := append_boundary_injective (marked _) (marked _) firstBoundary
      secondBoundary equal
    have sameLength := injective _ _ parts.1
    have noRest : rest = [] := by
      have lengths := congrArg List.length parts.2
      rw [List.length_append, sameLength] at lengths
      exact List.length_eq_zero_iff.mp (Nat.add_eq_left.mp lengths)
    rw [noRest, List.append_nil] at parts
    exact parts.2

end Sulfur.Code
