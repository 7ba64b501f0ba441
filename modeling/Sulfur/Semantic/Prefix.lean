import Sulfur.Library.Buffer
import Sulfur.Semantic.Mangling

/-!
# The buffer of a module prefix

`sf_mangle_module_prefix` on the buffer that it allocates.  Every part of the path is
written as its length, which `sprintf` ends with a NUL byte, and its characters, the first
of which takes the place of that byte.
-/

namespace Sulfur

/-- The locals of the loop: the buffer, the next free byte and the start of the part. -/
structure PrefixState where
  out : List Char
  n : Nat
  start : Nat
  deriving DecidableEq, Repr

/-- One turn of the loop of `sf_mangle_module_prefix`; `stop` is the variable `end`. -/
def prefixTurn (path : List Char) (stop i : Nat) (state : PrefixState) :
    Option PrefixState :=
  if i ≠ stop ∧ path[i]? ≠ some '/' then
    some state
  else
    let part := i - state.start
    if part > 0 then do
      let digits := (toString part).toList
      let printed ← Buffer.store state.out state.n (digits ++ ['\x00'])
      let n := state.n + digits.length
      let copied ← Buffer.store printed n ((path.drop state.start).take part)
      return ⟨copied, n + part, i + 1⟩
    else
      some { state with start := i + 1 }

/-- The turns from an index on. -/
def prefixLoop (path : List Char) (stop : Nat) :
    Nat → Nat → PrefixState → Option PrefixState
  | 0, _, state => some state
  | turns + 1, i, state => do
      let next ← prefixTurn path stop i state
      prefixLoop path stop turns (i + 1) next

/-- The index behind the path without its extension. -/
def prefixEnd (modulePath : String) : Nat :=
  (withoutExtension modulePath.toList).length

/-- The size of the buffer that `sf_mangle_module_prefix` allocates. -/
def prefixSize (modulePath : String) : Nat :=
  3 + prefixEnd modulePath * 2 + 1

/-- `sf_mangle_module_prefix` on its buffer. -/
def writeModulePrefix (modulePath : String) (out : List Char) : Option (List Char) := do
  let stop := prefixEnd modulePath
  let out ← Buffer.store out 0 "_SF".toList
  let final ← prefixLoop modulePath.toList stop (stop + 1) 0 ⟨out, 3, 0⟩
  Buffer.store final.out final.n ['\x00']

/-- The text of the parts of a path, each after its length. -/
def partsText (path : List Char) : List Char :=
  ((path.splitOn '/').filter (!·.isEmpty)).flatMap (Code.frame (Nat.toDigits 10))

/-- The loop has written a text of at most two bytes for every character that it has
passed. -/
structure PrefixState.Holds (state : PrefixState) (size : Nat) (text : List Char) : Prop where
  out : ∃ rest, state.out = text ++ rest
  length : state.out.length = size
  n : state.n = text.length
  bound : state.n ≤ 3 + 2 * (state.start - 1)

/-- The text of a part that has no slash. -/
theorem partsText_of_noSlash {part : List Char} (noSlash : '/' ∉ part) :
    partsText part = if part = [] then [] else Code.frame (Nat.toDigits 10) part := by
  rw [partsText, List.splitOn_eq_singleton noSlash]
  cases part <;> simp

theorem partsText_append {part rest : List Char} (noSlash : '/' ∉ part) :
    partsText (part ++ '/' :: rest) = partsText part ++ partsText rest := by
  rw [partsText, List.splitOn_append_cons_self_of_not_mem noSlash, partsText_of_noSlash noSlash]
  cases part <;> simp [partsText]

/-- A length has no more digits than the part has characters. -/
theorem length_digits_le {part : Nat} (positive : 0 < part) :
    (toString part).toList.length ≤ part := by
  rw [Nat.toString_eq_repr, Nat.toList_repr, Nat.length_toDigits_le_iff (by decide) positive]
  exact Nat.lt_pow_self (by decide)

section Loop

variable {path : List Char} {stop i : Nat} {state : PrefixState} {text : List Char}

/-- A turn at the end of a part writes the part. -/
theorem prefixTurn_ends (inside : i ≤ stop) (within : stop ≤ path.length)
    (ends : ¬(i ≠ stop ∧ path[i]? ≠ some '/')) (started : state.start ≤ i)
    (noSlash : '/' ∉ (path.drop state.start).take (i - state.start))
    (holds : state.Holds (3 + stop * 2 + 1) text) :
    ∃ next, prefixTurn path stop i state = some next ∧ next.start = i + 1 ∧
      next.Holds (3 + stop * 2 + 1)
        (text ++ partsText ((path.drop state.start).take (i - state.start))) := by
  have length : ((path.drop state.start).take (i - state.start)).length = i - state.start := by
    rw [List.length_take, List.length_drop]
    omega
  rcases holds with ⟨⟨rest, out⟩, size, free, bound⟩
  rw [partsText_of_noSlash noSlash]
  unfold prefixTurn
  rw [if_neg ends]
  dsimp only
  generalize (path.drop state.start).take (i - state.start) = part at length
  rw [← length]
  by_cases empty : part = []
  · subst empty
    refine ⟨{ state with start := i + 1 }, rfl, rfl, ⟨rest, by simpa using out⟩, size, ?_, ?_⟩
    · simpa using free
    · dsimp only
      omega
  · have positive : part.length > 0 := List.length_pos_iff.mpr empty
    have digits := length_digits_le positive
    have room : rest.length = 3 + stop * 2 + 1 - text.length := by
      rw [out, List.length_append] at size
      omega
    rw [if_pos positive, if_neg empty, out, free]
    have printedFits : ((toString part.length).toList ++ ['\x00']).length ≤ rest.length := by
      rw [List.length_append, List.length_singleton]
      omega
    rw [Buffer.store_append text printedFits]
    simp only [Option.bind_eq_bind, Option.bind_some]
    -- The characters of the part begin where `sprintf` has written its NUL byte.
    have apart : text ++ ((toString part.length).toList ++ ['\x00']) ++
          rest.drop ((toString part.length).toList ++ ['\x00']).length =
        (text ++ (toString part.length).toList) ++
          ('\x00' :: rest.drop ((toString part.length).toList.length + 1)) := by
      simp
    have position : text.length + (toString part.length).toList.length =
        (text ++ (toString part.length).toList).length := by
      rw [List.length_append]
    have copiedFits : part.length ≤
        ('\x00' :: rest.drop ((toString part.length).toList.length + 1)).length := by
      rw [List.length_cons, List.length_drop]
      omega
    rw [apart, position, Buffer.store_append _ copiedFits]
    have frame : text ++ Code.frame (Nat.toDigits 10) part =
        text ++ (toString part.length).toList ++ part := by
      rw [Code.frame, Nat.toString_eq_repr, Nat.toList_repr, List.append_assoc]
    have tail : 1 ≤ part.length := positive
    rw [frame]
    refine ⟨_, rfl, rfl, ⟨_, rfl⟩, ?_, ?_, ?_⟩
    · simp only [List.length_append, List.length_cons, List.length_drop]
      omega
    · simp only [List.length_append]
    · simp only [List.length_append]
      omega

/-- A turn inside a part changes nothing. -/
theorem prefixTurn_inside (ends : i ≠ stop ∧ path[i]? ≠ some '/') :
    prefixTurn path stop i state = some state := by
  rw [prefixTurn, if_pos ends]

/-- The part at a slash, and the parts behind it. -/
theorem drop_at_slash {start : Nat} (started : start ≤ i) (inside : i < stop)
    (slash : path[i]? = some '/') :
    (path.take stop).drop start =
      (path.drop start).take (i - start) ++ '/' :: (path.take stop).drop (i + 1) := by
  have here : (path.take stop)[i]? = some '/' := by
    rw [List.getElem?_take_of_lt inside, slash]
  rcases List.getElem?_eq_some_iff.mp here with ⟨bound, isSlash⟩
  have before : ((path.take stop).drop start).take (i - start) =
      (path.drop start).take (i - start) := by
    rw [List.drop_take, List.take_take, Nat.min_eq_left (by omega)]
  have behind : ((path.take stop).drop start).drop (i - start) =
      '/' :: (path.take stop).drop (i + 1) := by
    rw [List.drop_drop, Nat.add_sub_cancel' started, List.drop_eq_getElem_cons bound, isSlash]
  rw [← before, ← behind, List.take_append_drop]

/-- From any index on, the loop writes the parts that are left. -/
theorem prefixLoop_returns (within : stop ≤ path.length) {left : Nat} (sum : i + left = stop)
    (started : state.start ≤ i)
    (noSlash : '/' ∉ (path.drop state.start).take (i - state.start))
    (holds : state.Holds (3 + stop * 2 + 1) text) :
    ∃ final, prefixLoop path stop (left + 1) i state = some final ∧ final.start = stop + 1 ∧
      final.Holds (3 + stop * 2 + 1) (text ++ partsText ((path.take stop).drop state.start)) := by
  induction left generalizing i state text with
  | zero =>
      obtain rfl : i = stop := sum
      rcases prefixTurn_ends (le_refl i) within (fun ends => ends.1 rfl) started noSlash holds with
        ⟨next, run, start, written⟩
      rw [← List.drop_take] at written
      exact ⟨next, by rw [prefixLoop, run]; rfl, start, written⟩
  | succ left inductionHypothesis =>
      have inside : i < stop := by omega
      rw [prefixLoop]
      by_cases slash : path[i]? = some '/'
      · rcases prefixTurn_ends inside.le within (fun ends => ends.2 slash) started noSlash holds
          with ⟨next, run, start, written⟩
        have noSlashYet : '/' ∉ (path.drop next.start).take (i + 1 - next.start) := by
          simp [start]
        rcases inductionHypothesis (by omega) start.le noSlashYet written with
          ⟨final, rest, stopped, whole⟩
        rw [List.append_assoc, start, ← partsText_append noSlash,
          ← drop_at_slash started inside slash] at whole
        exact ⟨final, by rw [run]; exact rest, stopped, whole⟩
      · rw [prefixTurn_inside ⟨inside.ne, slash⟩]
        apply inductionHypothesis (by omega) (started.trans (Nat.le_succ i)) _ holds
        have next : i < path.length := by omega
        have grows : (path.drop state.start).take (i + 1 - state.start) =
            (path.drop state.start).take (i - state.start) ++ [path[i]] := by
          rw [Nat.succ_sub started, List.take_succ_eq_append_getElem (by
            rw [List.length_drop]
            omega), List.getElem_drop]
          congr 3
          omega
        rw [grows, List.mem_append, List.mem_singleton]
        rintro (before | isLast)
        · exact noSlash before
        · exact slash (by rw [List.getElem?_eq_getElem next, ← isLast])

end Loop

/-! ## The buffer -/

theorem withoutExtension_prefix (path : List Char) : withoutExtension path <+: path := by
  unfold withoutExtension
  dsimp only
  split
  · exact (List.dropLast_prefix _).trans (List.take_prefix _ _)
  · exact List.prefix_refl _

/-- Every byte that is written lies in the buffer, and what is written is the prefix with
the NUL byte behind it. -/
theorem writeModulePrefix_fits (modulePath : String) {out : List Char}
    (size : out.length = prefixSize modulePath) :
    ∃ written rest, writeModulePrefix modulePath out = some written ∧
      written = (mangleModulePrefix modulePath).toList ++ '\x00' :: rest ∧
      written.length = prefixSize modulePath := by
  have isPrefix := withoutExtension_prefix modulePath.toList
  have within : prefixEnd modulePath ≤ modulePath.toList.length := isPrefix.length_le
  have whole : modulePath.toList.take (prefixEnd modulePath) =
      withoutExtension modulePath.toList := (List.prefix_iff_eq_take.mp isPrefix).symm
  have firstFits : "_SF".toList.length ≤ out.length := by
    rw [size, prefixSize]
    simp
    omega
  have first := Buffer.store_append [] firstFits
  have begins : PrefixState.Holds ⟨"_SF".toList ++ out.drop 3, 3, 0⟩
      (3 + prefixEnd modulePath * 2 + 1) "_SF".toList := by
    refine ⟨⟨_, rfl⟩, ?_, rfl, le_refl 3⟩
    rw [List.length_append, List.length_drop, size, prefixSize]
    simp
    omega
  rcases prefixLoop_returns within (Nat.zero_add _) (le_refl 0) (by simp) begins with
    ⟨final, run, start, ⟨rest, isText⟩, length, free, bound⟩
  have isMangled : "_SF".toList ++ partsText ((modulePath.toList.take (prefixEnd modulePath)).drop
      0) = (mangleModulePrefix modulePath).toList := by
    rw [toList_mangleModulePrefix, whole, List.drop_zero, partsText]
  dsimp only at isText free
  rw [isMangled] at isText free
  have room : ['\x00'].length ≤ rest.length := by
    rw [isText, List.length_append] at length
    rw [free, start] at bound
    simp only [List.length_singleton]
    omega
  refine ⟨(mangleModulePrefix modulePath).toList ++ '\x00' :: rest.drop 1, rest.drop 1, ?_, rfl,
    ?_⟩
  · have last := Buffer.store_append (mangleModulePrefix modulePath).toList room
    rw [List.append_assoc] at last
    rw [writeModulePrefix]
    simp only [List.nil_append, List.length_nil] at first
    rw [first]
    simp only [Option.bind_eq_bind, Option.bind_some]
    have ran : prefixLoop modulePath.toList (prefixEnd modulePath) (prefixEnd modulePath + 1) 0
        ⟨"_SF".toList ++ out.drop 3, 3, 0⟩ = some final := run
    rw [show "_SF".toList.length = 3 from rfl, ran, Option.bind_some, isText, free, last]
    rfl
  · have total : final.out.length = prefixSize modulePath := length
    rw [← total, isText]
    simp only [List.length_append, List.length_cons, List.length_drop]
    simp only [List.length_singleton] at room
    omega

/-- A path of parts with one character each, which fills the buffer. -/
theorem writeModulePrefix_fits_short :
    ∃ written rest, writeModulePrefix "a/b.slfr" (List.replicate 10 ' ') = some written ∧
      written = (mangleModulePrefix "a/b.slfr").toList ++ '\x00' :: rest ∧
      written.length = prefixSize "a/b.slfr" :=
  writeModulePrefix_fits "a/b.slfr" (by decide)

end Sulfur
