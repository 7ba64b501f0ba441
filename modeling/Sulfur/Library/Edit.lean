import Mathlib.Tactic
import Mathlib.Order.Bounds.Basic

/-!
# Edit distance

A step of an edit inserts, deletes or replaces one letter anywhere in a word, and the
distance of two words is the least number of steps from one to the other.  The steps of a
shortest edit can be put in the order of the letters, which makes it an alignment of the two
words, and the last pair of an alignment gives the recurrence of the distance.
-/

namespace Sulfur.Edit

variable {α : Type}

/-- One letter is inserted, deleted or replaced. -/
inductive Step : List α → List α → Prop
  | insert (before after : List α) (letter : α) :
      Step (before ++ after) (before ++ letter :: after)
  | delete (before after : List α) (letter : α) :
      Step (before ++ letter :: after) (before ++ after)
  | substitute (before after : List α) (old new : α) :
      Step (before ++ old :: after) (before ++ new :: after)

/-- `Steps n first last`: a sequence of `n` edit steps. -/
inductive Steps : Nat → List α → List α → Prop
  | refl (word : List α) : Steps 0 word word
  | tail {n : Nat} {first middle last : List α} (steps : Steps n first middle)
      (step : Step middle last) : Steps (n + 1) first last

/-- The least number of insertions, deletions and substitutions. -/
def IsDistance (first last : List α) (distance : Nat) : Prop :=
  IsLeast {n | Steps n first last} distance

/-- An edit that passes the letters of both words once, in their order. -/
inductive Alignment : Nat → List α → List α → Prop
  | nil : Alignment 0 [] []
  | keep {n : Nat} {first last : List α} (letter : α) (rest : Alignment n first last) :
      Alignment n (letter :: first) (letter :: last)
  | substitute {n : Nat} {first last : List α} (old new : α)
      (rest : Alignment n first last) : Alignment (n + 1) (old :: first) (new :: last)
  | delete {n : Nat} {first last : List α} (letter : α) (rest : Alignment n first last) :
      Alignment (n + 1) (letter :: first) last
  | insert {n : Nat} {first last : List α} (letter : α) (rest : Alignment n first last) :
      Alignment (n + 1) first (letter :: last)

/-! ## Alignments -/

namespace Alignment

theorem refl (word : List α) : Alignment 0 word word := by
  induction word with
  | nil => exact .nil
  | cons letter rest inductionHypothesis => exact .keep letter inductionHypothesis

theorem append {m n : Nat} {first last first' last' : List α}
    (left : Alignment m first last) (right : Alignment n first' last') :
    Alignment (m + n) (first ++ first') (last ++ last') := by
  induction left with
  | nil => rwa [Nat.zero_add]
  | keep letter rest inductionHypothesis => exact .keep letter inductionHypothesis
  | substitute old new rest inductionHypothesis =>
      rw [Nat.add_right_comm]
      exact .substitute old new inductionHypothesis
  | delete letter rest inductionHypothesis =>
      rw [Nat.add_right_comm]
      exact .delete letter inductionHypothesis
  | insert letter rest inductionHypothesis =>
      rw [Nat.add_right_comm]
      exact .insert letter inductionHypothesis

theorem reverse {n : Nat} {first last : List α} (alignment : Alignment n first last) :
    Alignment n first.reverse last.reverse := by
  induction alignment with
  | nil => exact .nil
  | keep letter rest inductionHypothesis =>
      simpa using inductionHypothesis.append (.keep letter .nil)
  | substitute old new rest inductionHypothesis =>
      simpa using inductionHypothesis.append (.substitute old new .nil)
  | delete letter rest inductionHypothesis =>
      simpa using inductionHypothesis.append (.delete letter .nil)
  | insert letter rest inductionHypothesis =>
      simpa using inductionHypothesis.append (.insert letter .nil)

/-- An alignment with a word in two parts is two alignments. -/
theorem split {n : Nat} {first before after : List α}
    (alignment : Alignment n first (before ++ after)) :
    ∃ k l first' first'', n = k + l ∧ first = first' ++ first'' ∧
      Alignment k first' before ∧ Alignment l first'' after := by
  generalize word : before ++ after = last at alignment
  induction alignment generalizing before with
  | nil =>
      rcases List.append_eq_nil_iff.mp word with ⟨rfl, rfl⟩
      exact ⟨0, 0, [], [], rfl, rfl, .nil, .nil⟩
  | @keep n first last letter rest inductionHypothesis =>
      cases before with
      | nil =>
          obtain rfl : after = letter :: last := word
          exact ⟨0, n, [], _, (Nat.zero_add n).symm, rfl, .nil, .keep letter rest⟩
      | cons other before =>
          rcases List.cons.inj word with ⟨rfl, others⟩
          rcases inductionHypothesis others with ⟨k, l, first', first'', rfl, rfl, left, right⟩
          exact ⟨k, l, other :: first', first'', rfl, rfl, .keep other left, right⟩
  | @substitute n first last old new rest inductionHypothesis =>
      cases before with
      | nil =>
          obtain rfl : after = new :: last := word
          exact ⟨0, n + 1, [], _, (Nat.zero_add _).symm, rfl, .nil, .substitute old new rest⟩
      | cons other before =>
          rcases List.cons.inj word with ⟨rfl, others⟩
          rcases inductionHypothesis others with ⟨k, l, first', first'', rfl, rfl, left, right⟩
          exact ⟨k + 1, l, old :: first', first'', Nat.add_right_comm k l 1, rfl,
            .substitute old other left, right⟩
  | @delete n first last letter rest inductionHypothesis =>
      rcases inductionHypothesis word with ⟨k, l, first', first'', rfl, rfl, left, right⟩
      exact ⟨k + 1, l, letter :: first', first'', Nat.add_right_comm k l 1, rfl,
        .delete letter left, right⟩
  | @insert n first last letter rest inductionHypothesis =>
      cases before with
      | nil =>
          obtain rfl : after = letter :: last := word
          exact ⟨0, n + 1, [], _, (Nat.zero_add _).symm, rfl, .nil, .insert letter rest⟩
      | cons other before =>
          rcases List.cons.inj word with ⟨rfl, others⟩
          rcases inductionHypothesis others with ⟨k, l, first', first'', rfl, rfl, left, right⟩
          exact ⟨k + 1, l, first', first'', Nat.add_right_comm k l 1, rfl,
            .insert other left, right⟩

/-- A letter of the second word is left out at the cost of one. -/
theorem skip {n : Nat} {first last : List α} {letter : α}
    (alignment : Alignment n first (letter :: last)) :
    ∃ m ≤ n + 1, Alignment m first last := by
  generalize word : letter :: last = whole at alignment
  induction alignment with
  | nil => cases word
  | keep other rest =>
      rcases List.cons.inj word with ⟨rfl, rfl⟩
      exact ⟨_, le_rfl, .delete letter rest⟩
  | @substitute n first' last' old new rest =>
      rcases List.cons.inj word with ⟨rfl, rfl⟩
      exact ⟨n + 1, Nat.le_succ _, .delete old rest⟩
  | @delete n first' last' other rest inductionHypothesis =>
      rcases inductionHypothesis word with ⟨m, bound, shorter⟩
      exact ⟨m + 1, Nat.succ_le_succ bound, .delete other shorter⟩
  | @insert n first' last' other rest =>
      rcases List.cons.inj word with ⟨rfl, rfl⟩
      exact ⟨n, by omega, rest⟩

/-- A letter of the second word is replaced at the cost of one. -/
theorem replace {n : Nat} {first last : List α} {letter : α} (new : α)
    (alignment : Alignment n first (letter :: last)) :
    ∃ m ≤ n + 1, Alignment m first (new :: last) := by
  generalize word : letter :: last = whole at alignment
  induction alignment with
  | nil => cases word
  | keep other rest =>
      rcases List.cons.inj word with ⟨rfl, rfl⟩
      exact ⟨_, le_rfl, .substitute letter new rest⟩
  | @substitute n first' last' old other rest =>
      rcases List.cons.inj word with ⟨rfl, rfl⟩
      exact ⟨n + 1, Nat.le_succ _, .substitute old new rest⟩
  | @delete n first' last' other rest inductionHypothesis =>
      rcases inductionHypothesis word with ⟨m, bound, replaced⟩
      exact ⟨m + 1, Nat.succ_le_succ bound, .delete other replaced⟩
  | @insert n first' last' other rest =>
      rcases List.cons.inj word with ⟨rfl, rfl⟩
      exact ⟨n + 1, Nat.le_succ _, .insert new rest⟩

/-- One more step costs one more at the most. -/
theorem step {n : Nat} {first middle last : List α}
    (alignment : Alignment n first middle) (step : Step middle last) :
    ∃ m ≤ n + 1, Alignment m first last := by
  cases step with
  | insert before after letter =>
      rcases alignment.split with ⟨k, l, first', first'', rfl, rfl, left, right⟩
      exact ⟨k + (l + 1), le_rfl, left.append (.insert letter right)⟩
  | delete before after letter =>
      rcases alignment.split with ⟨k, l, first', first'', rfl, rfl, left, right⟩
      rcases right.skip with ⟨m, bound, skipped⟩
      exact ⟨k + m, Nat.add_le_add_left bound k, left.append skipped⟩
  | substitute before after old new =>
      rcases alignment.split with ⟨k, l, first', first'', rfl, rfl, left, right⟩
      rcases right.replace new with ⟨m, bound, replaced⟩
      exact ⟨k + m, Nat.add_le_add_left bound k, left.append replaced⟩

end Alignment

/-! ## Steps and alignments -/

theorem Step.cons (letter : α) {first last : List α} (step : Step first last) :
    Step (letter :: first) (letter :: last) := by
  cases step with
  | insert before after inserted => exact .insert (letter :: before) after inserted
  | delete before after deleted => exact .delete (letter :: before) after deleted
  | substitute before after old new => exact .substitute (letter :: before) after old new

theorem Steps.cons (letter : α) {n : Nat} {first last : List α}
    (steps : Steps n first last) : Steps n (letter :: first) (letter :: last) := by
  induction steps with
  | refl word => exact .refl (letter :: word)
  | tail steps step inductionHypothesis => exact .tail inductionHypothesis (step.cons letter)

theorem Alignment.steps {n : Nat} {first last : List α}
    (alignment : Alignment n first last) : Steps n first last := by
  induction alignment with
  | nil => exact .refl []
  | keep letter rest inductionHypothesis => exact inductionHypothesis.cons letter
  | @substitute n first last old new rest inductionHypothesis =>
      exact (inductionHypothesis.cons old).tail (.substitute [] last old new)
  | @delete n first last letter rest inductionHypothesis =>
      exact (inductionHypothesis.cons letter).tail (.delete [] last letter)
  | @insert n first last letter rest inductionHypothesis =>
      exact inductionHypothesis.tail (.insert [] last letter)

theorem Steps.alignment {n : Nat} {first last : List α} (steps : Steps n first last) :
    ∃ m ≤ n, Alignment m first last := by
  induction steps with
  | refl word => exact ⟨0, le_rfl, .refl word⟩
  | tail steps step inductionHypothesis =>
      rcases inductionHypothesis with ⟨m, bound, alignment⟩
      rcases alignment.step step with ⟨k, bound', longer⟩
      exact ⟨k, bound'.trans (Nat.succ_le_succ bound), longer⟩

/-- The distance is the cost of a cheapest alignment. -/
theorem isDistance_iff {first last : List α} {distance : Nat} :
    IsDistance first last distance ↔
      Alignment distance first last ∧
        ∀ n, Alignment n first last → distance ≤ n := by
  constructor
  · rintro ⟨steps, least⟩
    rcases Steps.alignment steps with ⟨m, bound, alignment⟩
    obtain rfl : m = distance := bound.antisymm (least alignment.steps)
    exact ⟨alignment, fun n other => least other.steps⟩
  · rintro ⟨alignment, least⟩
    constructor
    · exact alignment.steps
    · rintro n steps
      rcases Steps.alignment steps with ⟨m, bound, other⟩
      exact (least m other).trans bound

/-! ## The recurrence -/

theorem isDistance_nil_left (last : List α) : IsDistance [] last last.length := by
  rw [isDistance_iff]
  constructor
  · induction last with
    | nil => exact .nil
    | cons letter rest inductionHypothesis => exact .insert letter inductionHypothesis
  · intro n alignment
    generalize word : ([] : List α) = first at alignment
    induction alignment with
    | nil => exact le_rfl
    | insert letter rest inductionHypothesis =>
        exact Nat.succ_le_succ (inductionHypothesis word)
    | _ => cases word

theorem isDistance_nil_right (first : List α) : IsDistance first [] first.length := by
  rw [isDistance_iff]
  constructor
  · induction first with
    | nil => exact .nil
    | cons letter rest inductionHypothesis => exact .delete letter inductionHypothesis
  · intro n alignment
    generalize word : ([] : List α) = last at alignment
    induction alignment with
    | nil => exact le_rfl
    | delete letter rest inductionHypothesis =>
        exact Nat.succ_le_succ (inductionHypothesis word)
    | _ => cases word

theorem Alignment.of_reverse {n : Nat} {first last : List α}
    (alignment : Alignment n first.reverse last.reverse) : Alignment n first last := by
  have reversed := alignment.reverse
  rwa [List.reverse_reverse, List.reverse_reverse] at reversed

/-- The distance of two words from those without a last letter. -/
theorem IsDistance.concat [DecidableEq α] {first last : List α} {x y : α}
    {diagonal up left : Nat} (atDiagonal : IsDistance first last diagonal)
    (above : IsDistance first (last ++ [y]) up)
    (before : IsDistance (first ++ [x]) last left) :
    IsDistance (first ++ [x]) (last ++ [y])
      (min (diagonal + if x = y then 0 else 1) (min (up + 1) (left + 1))) := by
  rw [isDistance_iff] at atDiagonal above before ⊢
  constructor
  · rcases min_choice (diagonal + if x = y then 0 else 1) (min (up + 1) (left + 1)) with
      isDiagonal | isOther
    · rw [isDiagonal]
      apply atDiagonal.1.append
      split
      · rename_i same
        exact same ▸ .keep x .nil
      · exact .substitute x y .nil
    · rw [isOther]
      rcases min_choice (up + 1) (left + 1) with isUp | isLeft
      · rw [isUp]
        simpa using above.1.append (.delete x .nil)
      · rw [isLeft]
        simpa using before.1.append (.insert y .nil)
  · intro n alignment
    have reversed := alignment.reverse
    rw [List.reverse_append, List.reverse_append] at reversed
    cases reversed with
    | keep letter rest =>
        have least := atDiagonal.2 n rest.of_reverse
        simp [least]
    | @substitute n _ _ old new rest =>
        have least := atDiagonal.2 n rest.of_reverse
        apply min_le_of_left_le
        split <;> omega
    | @delete n _ _ letter rest =>
        have least := above.2 n (Alignment.of_reverse (by simpa using rest))
        exact min_le_of_right_le (min_le_of_left_le (Nat.succ_le_succ least))
    | @insert n _ _ letter rest =>
        have least := before.2 n (Alignment.of_reverse (by simpa using rest))
        exact min_le_of_right_le (min_le_of_right_le (Nat.succ_le_succ least))

end Sulfur.Edit
