import Mathlib.Data.List.Induction
import Mathlib.Data.Option.Basic
import Mathlib.Logic.Function.Basic

/-!
# Radix trees whose nodes live in a shared heap

A radix tree is a root node and, in every entry of an inner node, possibly a
pointer to a child.  Several trees share one heap of nodes, and nothing in the heap
itself keeps them apart: what does is a map `place` that gives every node in
use the tree and the path it stands at.  Since a node has one place, two paths never
meet, and a write to one node is a write at one path of one tree.

Main results:

- Theorem `Placed.descend_congr`: a tree is not affected by writes outside its
  inner nodes.
- Theorem `Placed.descend_graft`: hanging an empty node into a free entry adds
  exactly that node.
-/

namespace FastIpc
namespace Foundation
namespace RadixTree

variable {Node Index Word : Type} {child : Word → Option Node} {entry entry' : Node → Index → Word}

/-- Follow a path of entries down from a node. -/
def descend (child : Word → Option Node) (entry : Node → Index → Word) :
    Node → List Index → Option Node
  | n, [] => some n
  | n, i :: path => (child (entry n i)).bind fun c => descend child entry c path

@[simp]
theorem descend_nil (n : Node) : descend child entry n [] = some n := rfl

theorem descend_cons (n : Node) (i : Index) (path : List Index) :
    descend child entry n (i :: path) =
      (child (entry n i)).bind fun c => descend child entry c path :=
  rfl

theorem descend_append (n : Node) (path rest : List Index) :
    descend child entry n (path ++ rest) =
      (descend child entry n path).bind fun c => descend child entry c rest := by
  induction path generalizing n with
  | nil => rfl
  | cons i path ih => simp only [List.cons_append, descend_cons, Option.bind_assoc, ih]

/-- The last step of a path. -/
theorem descend_snoc_eq_some {n c : Node} {path : List Index} {i : Index} :
    descend child entry n (path ++ [i]) = some c ↔
      ∃ p, descend child entry n path = some p ∧ child (entry p i) = some c := by
  rw [descend_append]
  simp [Option.bind_eq_some_iff, descend_cons]

/-- A path leads to the same node when the nodes on the way have the same entries. -/
theorem descend_congr {depth : Nat} {r : Node}
    (h : ∀ walked n i, walked.length < depth → descend child entry r walked = some n →
      entry' n i = entry n i)
    {path : List Index} (hpath : path.length ≤ depth) :
    descend child entry' r path = descend child entry r path := by
  induction path generalizing r depth with
  | nil => rfl
  | cons i path ih =>
    obtain ⟨depth, rfl⟩ := Nat.exists_eq_add_of_le' (Nat.one_le_of_lt hpath)
    have hentry : entry' r i = entry r i := h [] r i (Nat.succ_pos _) rfl
    rw [descend_cons, descend_cons, hentry]
    cases hc : child (entry r i) with
    | none => rfl
    | some c =>
      refine @ih depth c (fun walked n j hlen hn => ?_) (Nat.le_of_succ_le_succ hpath)
      refine h (i :: walked) n j (Nat.succ_lt_succ hlen) ?_
      rw [descend_cons, hc]
      exact hn

/-- Every node of the tree at `r`, down to `depth`, knows its place. -/
def Placed (child : Word → Option Node) (entry : Node → Index → Word)
    (place : Node → Option (Node × List Index)) (depth : Nat) (r : Node) : Prop :=
  ∀ path n, path.length ≤ depth → descend child entry r path = some n → place n = some (r, path)

namespace Placed

variable {place place' : Node → Option (Node × List Index)} {depth : Nat} {r : Node}

section

variable (h : Placed child entry place depth r)
  (hsame : ∀ n path i, place n = some (r, path) → path.length < depth → entry' n i = entry n i)
include h hsame

/-- The nodes a path visits are the same when the inner nodes of the tree are. -/
theorem descend_congr {path : List Index} (hpath : path.length ≤ depth) :
    descend child entry' r path = descend child entry r path := by
  refine RadixTree.descend_congr (fun walked n i hlen hwalked => ?_) hpath
  exact hsame n walked i (h walked n (Nat.le_of_lt hlen) hwalked) hlen

/-- Writes outside the inner nodes of a tree keep its nodes placed. -/
theorem congr (hplace : ∀ n path, place n = some (r, path) → place' n = some (r, path)) :
    Placed child entry' place' depth r := by
  intro path n hlen hn
  rw [h.descend_congr hsame hlen] at hn
  exact hplace n path (h path n hlen hn)

end

section Graft

variable {p c : Node} {path0 : List Index} {i0 : Index}

variable (h : Placed child entry place depth r) (hp : place p = some (r, path0))
include h hp

/-- One step down a tree in which `c` was hung into entry `i0` of `p`. -/
theorem child_graft
    (hsame : ∀ n path i, place n = some (r, path) → (n ≠ p ∨ i ≠ i0) → entry' n i = entry n i)
    {walked : List Index} {n : Node} {i : Index} (hlen : walked.length ≤ depth)
    (hn : descend child entry r walked = some n) :
    entry' n i = entry n i ∨ (n = p ∧ i = i0 ∧ walked = path0) := by
  have hplace := h walked n hlen hn
  by_cases hn' : n = p
  · by_cases hi : i = i0
    · subst hn'
      rw [hp] at hplace
      simp only [Option.some.injEq, Prod.mk.injEq, true_and] at hplace
      exact .inr ⟨rfl, hi, hplace.symm⟩
    · exact .inl (hsame n walked i hplace (.inr hi))
  · exact .inl (hsame n walked i hplace (.inl hn'))

/-- What is found in the tree after an empty node was hung into a free entry. -/
theorem descend_graft (hpr : descend child entry r path0 = some p)
    (hfree : child (entry p i0) = none) (hc : child (entry' p i0) = some c)
    (hempty : ∀ i, child (entry' c i) = none)
    (hsame : ∀ n path i, place n = some (r, path) → (n ≠ p ∨ i ≠ i0) → entry' n i = entry n i)
    {path : List Index} {n : Node} (hlen : path.length ≤ depth) :
    descend child entry' r path = some n ↔
      descend child entry r path = some n ∨ (path = path0 ++ [i0] ∧ n = c) := by
  -- By induction on the last step of the path: it starts at an old node or at the new one.
  induction path using List.reverseRecOn generalizing n with
  | nil => simp
  | append_singleton path i ih =>
    simp only [List.length_append, List.length_singleton] at hlen
    rw [descend_snoc_eq_some, descend_snoc_eq_some]
    constructor
    · rintro ⟨q, hq, hqi⟩
      rcases (ih (by omega)).mp hq with hold | ⟨-, rfl⟩
      · rcases h.child_graft hp hsame (i := i) (by omega) hold with heq | ⟨rfl, rfl, rfl⟩
        · exact .inl ⟨q, hold, heq ▸ hqi⟩
        · rw [hc] at hqi
          exact .inr ⟨rfl, (Option.some.inj hqi).symm⟩
      · rw [hempty] at hqi
        cases hqi
    · rintro (⟨q, hq, hqi⟩ | ⟨heq, rfl⟩)
      · refine ⟨q, (ih (by omega)).mpr (.inl hq), ?_⟩
        rcases h.child_graft hp hsame (i := i) (by omega) hq with heq | ⟨rfl, rfl, -⟩
        · rwa [heq]
        · rw [hfree] at hqi
          cases hqi
      · obtain ⟨rfl, rfl⟩ : path = path0 ∧ i = i0 := by
          simpa using heq
        exact ⟨p, (ih (by omega)).mpr (.inl hpr), hc⟩

end Graft

end Placed

end RadixTree
end Foundation
end FastIpc
