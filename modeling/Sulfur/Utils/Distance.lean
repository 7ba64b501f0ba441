import Sulfur.Utils.Text
import Sulfur.Library.Buffer
import Sulfur.Library.Edit

/-!
# The distance of two strings

`sf_string_distance` fills a table of distances of prefixes row by row and keeps two rows of
a fixed length.  The program is stated here with its rows as buffers that are checked at
every access.
-/

namespace Sulfur

open Edit

/-! ## The program on two rows -/

/-- The loop that fills `previous` at first, from the index `j` on for a number of turns. -/
def storeIndices (previous : List Nat) (j : Nat) : Nat → Option (List Nat)
  | 0 => some previous
  | turns + 1 => do
      let previous ← Buffer.store previous j [j]
      storeIndices previous (j + 1) turns

/-- The inner loop of `sf_string_distance`, from the index `j` on for a number of turns. -/
def storeCells (a b : List Char) (i : Nat) (previous current : List Nat) (j : Nat) :
    Nat → Option (List Nat)
  | 0 => some current
  | turns + 1 => do
      let x ← a[i - 1]?
      let y ← b[j - 1]?
      let cost := if x = y then 0 else 1
      let diagonal ← previous[j - 1]?
      let up ← previous[j]?
      let left ← current[j - 1]?
      let best := diagonal + cost
      let best := if up + 1 < best then up + 1 else best
      let best := if left + 1 < best then left + 1 else best
      let current ← Buffer.store current j [best]
      storeCells a b i previous current (j + 1) turns

/-- The outer loop of `sf_string_distance`, from the index `i` on for a number of turns. -/
def storeRows (a b : List Char) (previous current : List Nat) (i : Nat) :
    Nat → Option (List Nat)
  | 0 => some previous
  | turns + 1 => do
      let current ← Buffer.store current 0 [i]
      let current ← storeCells a b i previous current 1 b.length
      let copied ← Buffer.load current 0 (b.length + 1)
      let previous ← Buffer.store previous 0 copied
      storeRows a b previous current (i + 1) turns

/-- `sf_string_distance` on what its rows hold at first; undefined if an access is outside of
the rows or of the strings. -/
def bufferDistance (previous current : List Nat) (a b : List Char) : Option Nat :=
  if b.length ≥ stringDistanceMax then
    some uint32Max
  else do
    let previous ← storeIndices previous 0 (b.length + 1)
    let previous ← storeRows a b previous current 1 a.length
    previous[b.length]?

theorem storeIndices_returns (before rest : List Nat) (turns : Nat)
    (enough : turns ≤ rest.length) :
    storeIndices (before ++ rest) before.length turns =
      some (before ++ List.range' before.length turns ++ rest.drop turns) := by
  induction turns generalizing before rest with
  | zero => simp [storeIndices]
  | succ turns inductionHypothesis =>
      cases rest with
      | nil => simp at enough
      | cons old rest =>
          have next := inductionHypothesis (before ++ [before.length]) rest
            (Nat.le_of_succ_le_succ enough)
          rw [List.length_append, List.append_assoc] at next
          rw [storeIndices, Buffer.store_cell]
          simpa [List.range'_succ] using next

/-- The source takes the least of three numbers with two comparisons. -/
theorem best_eq_min (diagonal up left : Nat) :
    (let best := if up < diagonal then up else diagonal
      if left < best then left else best) = min diagonal (min up left) := by
  dsimp only
  split <;> split <;> omega

/-- The inner loop fills the row behind its first cell. -/
theorem storeCells_returns {a : List Char} {i : Nat} {x : Char} (letter : a[i - 1]? = some x)
    (rest : List Char) : ∀ (front : List Char) (done above filled behind free : List Nat)
    (diagonal left : Nat), done.length = front.length → filled.length = front.length →
    above.length = rest.length → rest.length ≤ free.length →
      storeCells a (front ++ rest) i (done ++ diagonal :: above ++ behind)
        (filled ++ left :: free) (front.length + 1) rest.length =
          some (filled ++ left :: distanceRow x left diagonal rest above ++
            free.drop rest.length) := by
  induction rest with
  | nil =>
      intro front done above filled behind free diagonal left _ _ _ _
      simp [storeCells, distanceRow]
  | cons y rest inductionHypothesis =>
      intro front done above filled behind free diagonal left doneLength filledLength
        aboveLength freeLength
      cases above with
      | nil => cases aboveLength
      | cons up above =>
          cases free with
          | nil => simp at freeLength
          | cons old free =>
              have readDiagonal :
                  (done ++ diagonal :: (up :: above) ++ behind)[front.length]? =
                    some diagonal := by
                simp [← doneLength]
              have readUp :
                  (done ++ diagonal :: (up :: above) ++ behind)[front.length + 1]? =
                    some up := by
                simp [← doneLength]
              have readLeft : (filled ++ left :: old :: free)[front.length]? = some left := by
                simp [← filledLength]
              have readLetter : (front ++ y :: rest)[front.length]? = some y := by simp
              have stored (best : Nat) :
                  Buffer.store (filled ++ left :: old :: free) (front.length + 1) [best] =
                    some (filled ++ left :: best :: free) := by
                have cell := Buffer.store_cell (filled ++ [left]) old free best
                simpa [filledLength] using cell
              have next := inductionHypothesis (front ++ [y]) (done ++ [diagonal]) above
                (filled ++ [left]) behind free up
                (min (diagonal + if x = y then 0 else 1) (min (up + 1) (left + 1)))
                (by simp [doneLength]) (by simp [filledLength])
                (Nat.succ.inj aboveLength) (Nat.le_of_succ_le_succ freeLength)
              rw [List.length_cons, storeCells, Nat.add_sub_cancel, letter, readDiagonal, readUp,
                readLeft, readLetter]
              simp only [Option.bind_eq_bind, Option.bind_some, stored, best_eq_min]
              simpa [distanceRow] using next

theorem length_distanceRow (a : Char) (left diagonal : Nat) (b : List Char)
    (above : List Nat) : (distanceRow a left diagonal b above).length = b.length := by
  induction b generalizing left diagonal above with
  | nil => rfl
  | cons y rest inductionHypothesis =>
      exact congrArg Nat.succ (inductionHypothesis _ _ _)

/-- One turn of the outer loop replaces a row by the next one. -/
theorem storeRows_succ {a b : List Char} {i : Nat} {x : Char} (letter : a[i - 1]? = some x)
    {diagonal : Nat} {above : List Nat} (aboveLength : above.length = b.length)
    (behind : List Nat) {current : List Nat} (enough : b.length + 1 ≤ current.length)
    (turns : Nat) :
    storeRows a b (diagonal :: above ++ behind) current i (turns + 1) =
      storeRows a b (i :: distanceRow x i diagonal b above ++ behind)
        (i :: distanceRow x i diagonal b above ++ current.drop (b.length + 1)) (i + 1)
        turns := by
  cases current with
  | nil => simp at enough
  | cons old free =>
      have first : Buffer.store (old :: free) 0 [i] = some (i :: free) :=
        Buffer.store_cell [] old free i
      have filled : storeCells a b i (diagonal :: above ++ behind) (i :: free) 1 b.length =
          some (i :: distanceRow x i diagonal b above ++ free.drop b.length) :=
        storeCells_returns letter b [] [] above [] behind free diagonal i rfl rfl aboveLength
          (Nat.le_of_succ_le_succ enough)
      have length : (i :: distanceRow x i diagonal b above).length = b.length + 1 :=
        congrArg Nat.succ (length_distanceRow _ _ _ _ _)
      have copied : Buffer.load (i :: distanceRow x i diagonal b above ++ free.drop b.length)
          0 (b.length + 1) = some (i :: distanceRow x i diagonal b above) :=
        length ▸ Buffer.load_append _ _
      have stored : Buffer.store (diagonal :: above ++ behind) 0
          (i :: distanceRow x i diagonal b above) =
            some (i :: distanceRow x i diagonal b above ++ behind) :=
        Buffer.store_front (length.trans (congrArg Nat.succ aboveLength.symm))
      rw [storeRows]
      simp only [Option.bind_eq_bind, first, filled, copied, stored, Option.bind_some,
        List.drop_succ_cons]

/-- The outer loop leaves the last row of the table in `previous`. -/
theorem storeRows_returns (b rest : List Char) :
    ∀ (front : List Char) (row behind current : List Nat), row.length = b.length + 1 →
      b.length + 1 ≤ current.length →
        storeRows (front ++ rest) b (row ++ behind) current (front.length + 1) rest.length =
          some (distanceRows b (front.length + 1) rest row ++ behind) := by
  induction rest with
  | nil =>
      intro front row behind current _ _
      rfl
  | cons x rest inductionHypothesis =>
      intro front row behind current rowLength enough
      cases row with
      | nil => cases rowLength
      | cons diagonal above =>
          have letter : (front ++ x :: rest)[front.length + 1 - 1]? = some x := by simp
          rw [List.length_cons,
            storeRows_succ letter (Nat.succ.inj rowLength) behind enough rest.length]
          have others := inductionHypothesis (front ++ [x])
            ((front.length + 1) :: distanceRow x (front.length + 1) diagonal b above) behind
            ((front.length + 1) :: distanceRow x (front.length + 1) diagonal b above ++
              current.drop (b.length + 1))
            (by simp [length_distanceRow]) (by simp [length_distanceRow])
          simpa [distanceRows] using others

theorem length_distanceRows (b rest : List Char) (i : Nat) {row : List Nat}
    (length : row.length = b.length + 1) :
    (distanceRows b i rest row).length = b.length + 1 := by
  induction rest generalizing i row with
  | nil => exact length
  | cons x rest inductionHypothesis =>
      exact inductionHypothesis _ (congrArg Nat.succ (length_distanceRow _ _ _ _ _))

/-- The program returns whatever its rows hold at first, and what it returns is the number
that the table ends with. -/
theorem bufferDistance_eq {previous current : List Nat}
    (previousLength : previous.length = stringDistanceMax)
    (currentLength : current.length = stringDistanceMax) (a b : String) :
    bufferDistance previous current a.toList b.toList = some (stringDistance a b) := by
  unfold bufferDistance stringDistance
  rw [String.length_toList]
  split
  · rfl
  · rename_i short
    have enough : b.length + 1 ≤ stringDistanceMax := Nat.lt_of_not_ge short
    have indices := storeIndices_returns [] previous (b.length + 1)
      (previousLength.symm ▸ enough)
    simp only [List.nil_append, List.length_nil, ← List.range_eq_range'] at indices
    have rangeLength : (List.range (b.length + 1)).length = b.toList.length + 1 := by
      rw [List.length_range, String.length_toList]
    have rows := storeRows_returns b.toList a.toList [] _ (previous.drop (b.length + 1)) current
      rangeLength (by rw [String.length_toList, currentLength]; exact enough)
    simp only [List.nil_append, List.length_nil, Nat.zero_add] at rows
    have length := length_distanceRows b.toList a.toList 1 rangeLength
    rw [String.length_toList] at length
    rw [indices, Option.bind_eq_bind, Option.bind_some, rows, Option.bind_some,
      List.getElem?_append_left (by rw [length]; exact Nat.lt_succ_self _),
      List.getLastD_eq_getLast?, List.getLast?_eq_getElem?, length, Nat.add_sub_cancel]
    rw [List.getElem?_eq_getElem (by rw [length]; exact Nat.lt_succ_self _)]
    rfl

/-! ## The table of distances -/

/-- The entries of a row are the distances from a word to the prefixes of another one that
are longer than a given prefix. -/
def RowDistances (first front : List Char) : List Char → List Nat → Prop
  | [], row => row = []
  | _ :: _, [] => False
  | y :: rest, distance :: row =>
      IsDistance first (front ++ [y]) distance ∧ RowDistances first (front ++ [y]) rest row

/-- The row of the empty word counts insertions. -/
theorem rowDistances_nil (front rest : List Char) :
    RowDistances [] front rest (List.range' (front.length + 1) rest.length) := by
  induction rest generalizing front with
  | nil => rfl
  | cons y rest inductionHypothesis =>
      constructor
      · simpa using isDistance_nil_left (front ++ [y])
      · simpa using inductionHypothesis (front ++ [y])

/-- One row from the row before it, cell by cell. -/
theorem rowDistances_distanceRow {first : List Char} (x : Char) {front rest : List Char}
    {diagonal left : Nat} {above : List Nat} (atDiagonal : IsDistance first front diagonal)
    (before : IsDistance (first ++ [x]) front left)
    (row : RowDistances first front rest above) :
    RowDistances (first ++ [x]) front rest (distanceRow x left diagonal rest above) := by
  induction rest generalizing front diagonal left above with
  | nil => rfl
  | cons y rest inductionHypothesis =>
      cases above with
      | nil => cases row
      | cons up above =>
          have cell := atDiagonal.concat row.1 before
          exact ⟨cell, inductionHypothesis row.1 cell row.2⟩

/-- The table ends with the row of the whole first word. -/
theorem rowDistances_distanceRows (b rest : List Char) (front : List Char)
    {above : List Nat} (row : RowDistances front [] b above) :
    ∃ last, RowDistances (front ++ rest) [] b last ∧
      distanceRows b (front.length + 1) rest (front.length :: above) =
        (front ++ rest).length :: last := by
  induction rest generalizing front above with
  | nil => exact ⟨above, by rwa [List.append_nil], by rw [distanceRows, List.append_nil]⟩
  | cons x rest inductionHypothesis =>
      have next := rowDistances_distanceRow x (isDistance_nil_right front)
        (isDistance_nil_right (front ++ [x])) row
      rcases inductionHypothesis (front ++ [x]) next with ⟨last, lastRow, rows⟩
      rw [List.append_assoc, List.singleton_append] at lastRow rows
      rw [List.length_append, List.length_singleton] at rows
      exact ⟨last, lastRow, by simpa [distanceRows] using rows⟩

/-- The last entry of a row belongs to the whole second word. -/
theorem isDistance_getLastD {first front rest : List Char} {row : List Nat}
    (distances : RowDistances first front rest row) {left : Nat}
    (before : IsDistance first front left) (default : Nat) :
    IsDistance first (front ++ rest) ((left :: row).getLastD default) := by
  induction rest generalizing front left row with
  | nil =>
      obtain rfl : row = [] := distances
      simpa using before
  | cons y rest inductionHypothesis =>
      cases row with
      | nil => cases distances
      | cons distance row =>
          have others := inductionHypothesis distances.2 distances.1
          simpa using others

/-- Up to the limit, `sf_string_distance` is the edit distance. -/
theorem isDistance_stringDistance (a : String) {b : String}
    (short : b.length < stringDistanceMax) :
    IsDistance a.toList b.toList (stringDistance a b) := by
  have indices : List.range (b.length + 1) = 0 :: List.range' 1 b.toList.length := by
    rw [String.length_toList, List.range_eq_range', List.range'_succ]
  rcases rowDistances_distanceRows b.toList a.toList [] (rowDistances_nil [] b.toList) with
    ⟨last, row, rows⟩
  simp only [List.nil_append, List.length_nil, Nat.zero_add] at row rows
  rw [stringDistance, if_neg (Nat.not_le_of_lt short), indices, rows]
  exact isDistance_getLastD row (isDistance_nil_right a.toList) 0

end Sulfur
