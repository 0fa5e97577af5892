import Mathlib.Data.Fintype.Card
import Mathlib.Data.Fintype.Prod

/-!
# Counting references

A table of places that may each refer to an object.  A reference count is right if it is
the number of places that refer to the object; the lemmas say how that number changes when
one place is filled or emptied.

Main results:

- Theorems `references_fill` and `references_clear`: one place changes the count of one
  object by one.
-/

namespace FastIpc
namespace Foundation

variable {ι α : Type} [Fintype ι] [DecidableEq α]

/-- The number of places that refer to an object. -/
def references (table : ι → Option α) (a : α) : Nat :=
  (Finset.univ.filter fun i => table i = some a).card

variable {table : ι → Option α} {i : ι} {a : α}

theorem references_pos_iff : 0 < references table a ↔ ∃ i, table i = some a := by
  simp [references, Finset.card_pos, Finset.filter_nonempty_iff]

/-- A table without references. -/
theorem references_eq_zero (h : ∀ i, table i = none) (a : α) : references table a = 0 := by
  simp [references, h]

variable [DecidableEq ι]

/-- An empty place is filled. -/
theorem references_fill (h : table i = none) (b : α) :
    references (Function.update table i (some a)) b =
      references table b + if b = a then 1 else 0 := by
  unfold references
  by_cases hb : b = a
  · subst hb
    have hinsert : (Finset.univ.filter fun j => Function.update table i (some b) j = some b) =
        insert i (Finset.univ.filter fun j => table j = some b) := by
      ext j
      by_cases hj : j = i
      · simp [hj]
      · simp [hj]
    rw [hinsert, Finset.card_insert_of_notMem (by simp [h]), if_pos rfl]
  · rw [if_neg hb, Nat.add_zero]
    congr 1
    ext j
    by_cases hj : j = i
    · simp [hj, h, Ne.symm hb]
    · simp [hj]

/-- A place is emptied. -/
theorem references_clear (h : table i = some a) (b : α) :
    references (Function.update table i none) b + (if b = a then 1 else 0) =
      references table b := by
  have hfill := references_fill (a := a) (Function.update_self i none table) b
  rw [Function.update_idem, ← h, Function.update_eq_self] at hfill
  exact hfill.symm

end Foundation
end FastIpc
