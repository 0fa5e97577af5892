import FastIpc.Fs.Format
import Mathlib

/-!
# Elements of a path

`skipelem` of `kernel/fs.c` takes the next element off a path, and the loop of `namex` looks the
elements up one after the other.  A path is given by its bytes before the zero byte, and a name by
those in its array of `DIRSIZ` bytes.

Main results:

- Theorem `pathComponents_skipelem`: `skipelem` takes off one component.
- Theorem `pathElements_eq`: the loop sees the components of the path, and where the last one is.
-/

namespace FastIpc
namespace Fs

/-- The separator of path elements. -/
abbrev slash : BitVec 8 := 47

/-- `skipelem`: what is left of the path, and the name. -/
def skipelem (path : List (BitVec 8)) : Option (List (BitVec 8) × List (BitVec 8)) :=
  let s := path.dropWhile (· == slash)
  if s = [] then none
  else
    -- the array `name` takes `DIRSIZ` bytes, and no zero byte if the element has as many
    some ((s.dropWhile (· != slash)).dropWhile (· == slash), (s.takeWhile (· != slash)).take dirsiz)

/-- The names that the loop of `namex` gets, each with its test for the end of the path. -/
def pathElements : Nat → List (BitVec 8) → List (List (BitVec 8) × Bool)
  | 0, _ => []
  | fuel + 1, path =>
    match skipelem path with
    | none => []
    | some (rest, name) => (name, rest.isEmpty) :: pathElements fuel rest

/-- The longest parts of a path that have no slash and are not empty. -/
def pathParts (path : List (BitVec 8)) : List (List (BitVec 8)) :=
  (path.splitOn slash).filter (· ≠ [])

/-- The parts of a path, each cut off after `DIRSIZ` bytes. -/
def pathComponents (path : List (BitVec 8)) : List (List (BitVec 8)) :=
  (pathParts path).map (·.take dirsiz)

/-- The elements of a list, each with whether it is the last one. -/
def markLast {α : Type} : List α → List (α × Bool)
  | [] => []
  | a :: l => (a, l.isEmpty) :: markLast l

theorem pathParts_slash (l : List (BitVec 8)) : pathParts (slash :: l) = pathParts l := by
  unfold pathParts
  rw [List.splitOn_cons_eq_if_modifyHead, if_pos (by simp), List.filter_cons_of_neg (by simp)]

/-- Leading slashes do not count. -/
theorem pathParts_dropWhile (l : List (BitVec 8)) :
    pathParts (l.dropWhile (· == slash)) = pathParts l := by
  induction l with
  | nil => rfl
  | cons b l ih =>
    by_cases hb : b = slash
    · subst hb
      rw [List.dropWhile_cons_of_pos (by simp), ih, pathParts_slash]
    · rw [List.dropWhile_cons_of_neg (by simpa using hb)]

/-- The bytes up to the first slash are the first part. -/
theorem pathParts_of_ne {b : BitVec 8} (hb : b ≠ slash) (l : List (BitVec 8)) :
    pathParts (b :: l) =
      (b :: l).takeWhile (· != slash) :: pathParts ((b :: l).dropWhile (· != slash)) := by
  have hfree : ∀ x ∈ (b :: l).takeWhile (· != slash), (x == slash) = false := by
    intro x hx
    simpa using List.mem_takeWhile_imp hx
  have hne : (b :: l).takeWhile (· != slash) ≠ [] := by
    rw [List.takeWhile_cons_of_pos (by simpa using hb)]
    exact List.cons_ne_nil b _
  have hcut := (List.takeWhile_append_dropWhile (p := (· != slash)) (l := b :: l)).symm
  have hhead := List.head?_dropWhile_not (· != slash) (b :: l)
  generalize (b :: l).takeWhile (· != slash) = first at hfree hne hcut
  cases hrest : (b :: l).dropWhile (· != slash) with
  | nil =>
    rw [hrest, List.append_nil] at hcut
    unfold pathParts
    rw [hcut, List.splitOn_eq_singleton_of_beq_eq_false hfree]
    simp [hne]
  | cons c rest =>
    rw [hrest] at hcut hhead
    obtain rfl : c = slash := by simpa using hhead
    rw [hcut, pathParts_slash]
    unfold pathParts
    rw [List.splitOn_eq_splitOnP,
      List.splitOnP_append_cons_of_forall_mem hfree slash (by simp) rest,
      List.filter_cons_of_pos (by simpa using hne), List.splitOn_eq_splitOnP]

/-- A path that does not begin with a slash has a component, if it is not empty. -/
theorem pathComponents_dropWhile_eq_nil {l : List (BitVec 8)} :
    pathComponents (l.dropWhile (· == slash)) = [] ↔ l.dropWhile (· == slash) = [] := by
  have hhead := List.head?_dropWhile_not (· == slash) l
  cases hl : l.dropWhile (· == slash) with
  | nil => simp [pathComponents, pathParts]
  | cons b m =>
    rw [hl] at hhead
    have hb : b ≠ slash := by simpa using hhead
    simp [pathComponents, pathParts_of_ne hb]

/-- `skipelem` takes off the first component, if there is one.  What is left is shorter, and it is
empty if no component is left. -/
theorem pathComponents_skipelem (path : List (BitVec 8)) :
    match skipelem path with
    | none => pathComponents path = []
    | some (rest, name) => pathComponents path = name :: pathComponents rest ∧
        rest.length < path.length ∧ (pathComponents rest = [] ↔ rest = []) := by
  unfold skipelem
  dsimp only
  have hhead := List.head?_dropWhile_not (· == slash) path
  have hlen := (List.dropWhile_sublist (· == slash) (l := path)).length_le
  have hsame : pathComponents path = pathComponents (path.dropWhile (· == slash)) := by
    rw [pathComponents, pathComponents, pathParts_dropWhile]
  cases hs : path.dropWhile (· == slash) with
  | nil => exact hsame.trans (congrArg pathComponents hs)
  | cons b l =>
    rw [hs] at hhead hlen hsame
    have hb : b ≠ slash := by simpa using hhead
    rw [if_neg (List.cons_ne_nil b l)]
    refine ⟨?_, ?_, pathComponents_dropWhile_eq_nil⟩
    · rw [hsame, pathComponents, pathComponents, pathParts_dropWhile, pathParts_of_ne hb]
      rfl
    · rw [List.dropWhile_cons_of_pos (by simpa using hb)]
      exact (((List.dropWhile_sublist _).trans (List.dropWhile_sublist _)).length_le).trans_lt hlen

/-- On every path the loop of `namex` gets the components in their order, and finds the end of the
path after the last one, whatever slashes are around them. -/
theorem pathElements_eq (path : List (BitVec 8)) :
    pathElements (path.length + 1) path = markLast (pathComponents path) := by
  have hrun : ∀ fuel path, path.length < fuel →
      pathElements fuel path = markLast (pathComponents path) := by
    intro fuel
    induction fuel with
    | zero => exact fun path hlen => absurd hlen (Nat.not_lt_zero _)
    | succ fuel ih =>
      intro path hlen
      have hspec := pathComponents_skipelem path
      rw [pathElements]
      split at hspec
      next =>
        rw [hspec]
        rfl
      next rest name hskip =>
        obtain ⟨hcons, hshort, hend⟩ := hspec
        have hlast : rest.isEmpty = (pathComponents rest).isEmpty := by
          rw [Bool.eq_iff_iff, List.isEmpty_iff, List.isEmpty_iff, hend]
        rw [hcons, markLast, ih rest (by omega), hlast]
  exact hrun _ path (Nat.lt_succ_self _)

end Fs
end FastIpc
