import Sulfur.Semantic.Scope
import Sulfur.Utils.Distance

/-!
# Name suggestions

`scope_find_closest` and `sf_func_symbol_table_find_closest` suggest a name for one that is
not declared.  The suggestion is a nearest name among those that are declared, if one is near
enough.
-/

namespace Sulfur

open Edit

/-- The answers that a search for a name among declared ones may give: a name at least
distance, or nothing if every name is too far away. -/
def Nearest (declared : String → Prop) (name : String) : Option String → Prop
  | some found =>
      declared found ∧ ∃ distance, IsDistance found.toList name.toList distance ∧
        2 * distance ≤ name.length ∧
        ∀ other, declared other → ∀ far, IsDistance other.toList name.toList far →
          distance ≤ far
  | none =>
      ∀ other, declared other → ∀ far, IsDistance other.toList name.toList far →
        name.length < 2 * far

/-- A variable of the scope has the name. -/
def Scope.Declares (scope : Scope) (name : String) : Prop :=
  ∃ table ∈ scope.stack, ∃ symbol ∈ table, symbol.name = name

/-- A function of the table has the name. -/
def FuncSymbolTable.HasName (table : FuncSymbolTable) (name : String) : Prop :=
  ∃ func ∈ table.functions, func.name = name

/-! ## The search -/

/-- What the loop knows about the names that it has seen. -/
structure Closest (name : String) (seen : List String) (best : Nat × Option String) :
    Prop where
  least : ∀ candidate ∈ seen, best.1 ≤ stringDistance candidate name
  found : ∀ candidate ∈ best.2, candidate ∈ seen ∧ stringDistance candidate name = best.1
  missing : best.2 = none → best.1 = uint32Max

/-- One turn of the loop. -/
theorem Closest.turn {name : String} {seen : List String} {best : Nat × Option String}
    (closest : Closest name seen best) (candidate : String) :
    Closest name (seen ++ [candidate])
      (if stringDistance candidate name < best.1 then
        (stringDistance candidate name, some candidate)
      else
        best) := by
  split
  · rename_i closer
    constructor
    · intro other inSeen
      rcases List.mem_append.mp inSeen with inSeen | last
      · exact closer.le.trans (closest.least other inSeen)
      · rw [List.mem_singleton.mp last]
    · rintro other ⟨⟩
      exact ⟨by simp, rfl⟩
    · rintro ⟨⟩
  · rename_i notCloser
    constructor
    · intro other inSeen
      rcases List.mem_append.mp inSeen with inSeen | last
      · exact closest.least other inSeen
      · rw [List.mem_singleton.mp last]
        exact Nat.le_of_not_lt notCloser
    · intro other isBest
      rcases closest.found other isBest with ⟨inSeen, distance⟩
      exact ⟨List.mem_append_left _ inSeen, distance⟩
    · exact closest.missing

theorem Closest.search {name : String} {seen : List String} {best : Nat × Option String}
    (closest : Closest name seen best) (candidates : List String) :
    Closest name (seen ++ candidates)
      (candidates.foldl
        (fun best candidate =>
          let distance := stringDistance candidate name
          if distance < best.1 then (distance, some candidate) else best) best) := by
  induction candidates generalizing seen best with
  | nil => rwa [List.append_nil]
  | cons candidate rest inductionHypothesis =>
      have others := inductionHypothesis (closest.turn candidate)
      rwa [List.append_assoc] at others

theorem closest_nil (name : String) : Closest name [] (uint32Max, none) := by
  constructor
  · rintro candidate ⟨⟩
  · rintro candidate ⟨⟩
  · exact fun _ => rfl

theorem nearest_findClosest {name : String} (short : name.length < stringDistanceMax)
    (candidates : List String) :
    Nearest (· ∈ candidates) name (findClosest candidates name) := by
  have closest := (closest_nil name).search candidates
  rw [List.nil_append] at closest
  unfold findClosest
  dsimp only at closest ⊢
  generalize candidates.foldl _ _ = best at closest ⊢
  rcases best with ⟨distance, found⟩
  have unique (candidate : String) {far : Nat}
      (isFar : IsDistance candidate.toList name.toList far) :
      stringDistance candidate name = far :=
    (isDistance_stringDistance candidate short).unique isFar
  split
  · rename_i tooFar
    intro other declared far isFar
    have least := closest.least other declared
    rw [unique other isFar] at least
    dsimp only at tooFar least
    omega
  · rename_i near
    cases found with
    | none =>
        have limit : distance = uint32Max := closest.missing rfl
        have bounds : uint32Max ≤ name.length / 2 := limit ▸ Nat.le_of_not_lt near
        unfold uint32Max at bounds
        unfold stringDistanceMax at short
        omega
    | some candidate =>
        rcases closest.found candidate rfl with ⟨declared, same⟩
        constructor
        · exact declared
        · have isDistance := isDistance_stringDistance candidate short
          dsimp only at near same
          rw [same] at isDistance
          refine ⟨distance, isDistance, ?_, ?_⟩
          · omega
          · intro other otherDeclared far isFar
            rw [← unique other isFar]
            exact closest.least other otherDeclared

/-- A name at the limit is not compared. -/
theorem findClosest_of_long {name : String} (long : stringDistanceMax ≤ name.length)
    (candidates : List String) : findClosest candidates name = none := by
  unfold findClosest
  dsimp only
  have unchanged : candidates.foldl
      (fun best candidate =>
        if stringDistance candidate name < best.1 then
          (stringDistance candidate name, some candidate)
        else
          best) (uint32Max, none) = (uint32Max, (none : Option String)) := by
    induction candidates with
    | nil => rfl
    | cons candidate rest inductionHypothesis =>
        have limit : stringDistance candidate name = uint32Max := if_pos long
        rw [List.foldl_cons, if_neg (by rw [limit]; exact Nat.lt_irrefl _)]
        exact inductionHypothesis
  rw [unchanged, ite_self]

/-! ## Scopes and function tables -/

theorem Scope.mem_names_iff (scope : Scope) (name : String) :
    name ∈ scope.stack.flatten.map VarSymbol.name ↔ scope.Declares name := by
  simp only [List.mem_map, List.mem_flatten, Scope.Declares]
  constructor
  · rintro ⟨symbol, ⟨table, inStack, inTable⟩, named⟩
    exact ⟨table, inStack, symbol, inTable, named⟩
  · rintro ⟨table, inStack, symbol, inTable, named⟩
    exact ⟨symbol, ⟨table, inStack, inTable⟩, named⟩

theorem Scope.nearest_findClosest {name : String} (short : name.length < stringDistanceMax)
    (scope : Scope) : Nearest scope.Declares name (scope.findClosest name) := by
  have names : (· ∈ scope.stack.flatten.map VarSymbol.name) = scope.Declares :=
    funext fun other => propext (scope.mem_names_iff other)
  rw [← names]
  exact Sulfur.nearest_findClosest short _

theorem FuncSymbolTable.nearest_findClosest {name : String}
    (short : name.length < stringDistanceMax) (table : FuncSymbolTable) :
    Nearest table.HasName name (table.findClosest name) := by
  have names : (· ∈ table.functions.map FuncSymbol.name) = table.HasName :=
    funext fun other => propext List.mem_map
  rw [← names]
  exact Sulfur.nearest_findClosest short _

/-- The distance of a name from every string is their edit distance, computed inside the two
rows whatever they hold at first, and a suggestion for the name is a declared one at least
distance of at most half of its length.  A name at the limit, which no token has, is compared
with none and gets no suggestion. -/
theorem suggestions_nearest (name : String) :
    (name.length < stringDistanceMax →
      (∀ (a : String) (previous current : List Nat), previous.length = stringDistanceMax →
        current.length = stringDistanceMax →
          ∃ distance, bufferDistance previous current a.toList name.toList = some distance ∧
            IsDistance a.toList name.toList distance) ∧
      (∀ scope : Scope, Nearest scope.Declares name (scope.findClosest name)) ∧
      ∀ table : FuncSymbolTable, Nearest table.HasName name (table.findClosest name)) ∧
    (stringDistanceMax ≤ name.length →
      (∀ scope : Scope, scope.findClosest name = none) ∧
        ∀ table : FuncSymbolTable, table.findClosest name = none) := by
  constructor
  · intro short
    exact ⟨fun a _ _ previousLength currentLength =>
        ⟨stringDistance a name, bufferDistance_eq previousLength currentLength a name,
          isDistance_stringDistance a short⟩,
      fun scope => scope.nearest_findClosest short,
      fun table => table.nearest_findClosest short⟩
  · intro long
    exact ⟨fun scope => findClosest_of_long long _, fun table => findClosest_of_long long _⟩

/-- The misspelt `couter` is one step away from `counter`. -/
theorem suggestions_nearest_couter :
    IsDistance "counter".toList "couter".toList 1 ∧
      Nearest (Scope.Declares ⟨[[{ name := "counter", type := .i32, initialized := true }]], 1⟩)
        "couter" (some "counter") := by
  have short : "couter".length < stringDistanceMax := by decide
  have one : stringDistance "counter" "couter" = 1 := by decide
  have length : (List.replicate stringDistanceMax 0).length = stringDistanceMax :=
    List.length_replicate
  rcases (suggestions_nearest "couter").1 short with ⟨distances, scopes, -⟩
  constructor
  · rcases distances "counter" _ _ length length with ⟨distance, run, isDistance⟩
    rw [bufferDistance_eq length length, one] at run
    obtain rfl := Option.some.inj run
    exact isDistance
  · exact scopes ⟨[[{ name := "counter", type := .i32, initialized := true }]], 1⟩

end Sulfur
