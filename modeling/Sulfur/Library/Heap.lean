import Mathlib.Tactic

/-!
# Linked nodes and regions

Nodes are numbered in the order in which they were made, and a node may point to another one.
A region is a range of cells in a numbered block.
-/

namespace Sulfur.Heap

/-! ## Linked nodes -/

/-- The nodes that a pointer leads to, in their order, up to a null pointer.  A node that has
not been made has no link. -/
inductive Path (link : Nat → Option (Option Nat)) : Option Nat → List Nat → Prop
  | nil : Path link none []
  | cons {node : Nat} {next : Option Nat} {rest : List Nat} (found : link node = some next)
      (path : Path link next rest) : Path link (some node) (node :: rest)

/-- The last node of a path, which had a null pointer, gets a successor. -/
theorem Path.concat {link later : Nat → Option (Option Nat)} {start : Option Nat}
    {front : List Nat} {last new : Nat} (leads : Path link start (front ++ [last]))
    (nodup : (front ++ [last]).Nodup) (same : ∀ node ∈ front, later node = link node)
    (linked : later last = some (some new)) (ends : later new = some none) :
    Path later start (front ++ [last] ++ [new]) := by
  induction front generalizing start with
  | nil =>
      cases leads with
      | cons found rest => exact .cons linked (.cons ends .nil)
  | cons node front inductionHypothesis =>
      rw [List.forall_mem_cons] at same
      rw [List.cons_append, List.nodup_cons] at nodup
      cases leads with
      | cons found rest =>
          exact .cons (same.1.trans found) (inductionHypothesis rest nodup.2 same.2)

/-! ## Regions -/

/-- Some cells of a block, one after the other. -/
structure Region where
  block : Nat
  offset : Nat
  size : Nat
  deriving DecidableEq, Repr

/-- No cell is in both regions. -/
def Region.Disjoint (first second : Region) : Prop :=
  first.block ≠ second.block ∨ first.offset + first.size ≤ second.offset ∨
    second.offset + second.size ≤ first.offset

/-- Part of a region. -/
def Region.Within (inner outer : Region) : Prop :=
  inner.block = outer.block ∧ outer.offset ≤ inner.offset ∧
    inner.offset + inner.size ≤ outer.offset + outer.size

end Sulfur.Heap
