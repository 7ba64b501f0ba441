import Mathlib.Tactic

/-!
# Buffers

A buffer is a list of cells of a fixed length.  A store replaces cells from a position on
and is undefined when it would leave the buffer, so that a program that returns has stored
inside its buffers only.
-/

namespace Sulfur.Buffer

variable {α : Type}

/-- Replace the cells from a position on. -/
def store (buffer : List α) (position : Nat) (values : List α) : Option (List α) :=
  if position + values.length ≤ buffer.length then
    some (buffer.take position ++ values ++ buffer.drop (position + values.length))
  else
    none

/-- The cells from a position on, as many as asked for. -/
def load (buffer : List α) (position count : Nat) : Option (List α) :=
  if position + count ≤ buffer.length then
    some ((buffer.drop position).take count)
  else
    none

/-- A store behind the cells that are filled already. -/
theorem store_append (before : List α) {rest values : List α}
    (fits : values.length ≤ rest.length) :
    store (before ++ rest) before.length values =
      some (before ++ values ++ rest.drop values.length) := by
  have inside : before.length + values.length ≤ (before ++ rest).length := by
    rw [List.length_append]
    exact Nat.add_le_add_left fits _
  rw [store, if_pos inside, List.take_left, List.drop_append]
  simp

/-- A store of one cell behind those that are filled already. -/
theorem store_cell (before : List α) (old : α) (rest : List α) (value : α) :
    store (before ++ old :: rest) before.length [value] = some (before ++ value :: rest) := by
  rw [store_append before (by simp)]
  simp

theorem load_append (front rest : List α) :
    load (front ++ rest) 0 front.length = some front := by
  simp [load]

/-- A store of a whole front. -/
theorem store_front {front other rest : List α} (length : front.length = other.length) :
    store (other ++ rest) 0 front = some (front ++ rest) := by
  simp [store, length]

end Sulfur.Buffer
