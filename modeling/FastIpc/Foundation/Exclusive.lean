import Mathlib.Logic.Function.Basic

/-!
# Exclusive references

Places that may each refer to a cell of a pool, and a mark on every cell.  The references are
exclusive if no cell is referred to from two places and exactly the cells referred to are
marked.  This is what an allocator and the structures that hold its cells keep between them.

Main results:

- Theorem `Exclusive.fill`: an allocation into an empty place keeps the references exclusive.
- Theorem `Exclusive.restrict`: so does forgetting several places at once.
-/

namespace FastIpc
namespace Foundation

open Function (update update_of_ne update_self)

variable {P B : Type}

/-- No cell of the pool is referred to twice, and the marked cells are those referred to. -/
structure Exclusive (ref : P → Option B) (cell marked : B → Prop) : Prop where
  cell_of_ref : ∀ {p b}, ref p = some b → cell b
  unique : ∀ {p q b}, ref p = some b → ref q = some b → p = q
  marked_iff : ∀ {b}, cell b → (marked b ↔ ∃ p, ref p = some b)

namespace Exclusive

variable {ref ref' : P → Option B} {cell marked marked' : B → Prop} {p : P} {b : B}

/-- A cell that is referred to is marked. -/
theorem marked_of_ref (h : Exclusive ref cell marked) (hp : ref p = some b) : marked b :=
  (h.marked_iff (h.cell_of_ref hp)).mpr ⟨p, hp⟩

/-- Marks outside the pool do not matter. -/
theorem congr_marked (h : Exclusive ref cell marked)
    (hmark : ∀ b, cell b → (marked' b ↔ marked b)) : Exclusive ref cell marked' where
  cell_of_ref := h.cell_of_ref
  unique := h.unique
  marked_iff hb := (hmark _ hb).trans (h.marked_iff hb)

/-- Without references nothing is marked. -/
theorem of_none (href : ∀ p, ref p = none) (hmark : ∀ b, cell b → ¬marked b) :
    Exclusive ref cell marked where
  cell_of_ref hp := by simp [href] at hp
  unique hp := by simp [href] at hp
  marked_iff hb := by simp [href, hmark _ hb]

/-- Places that are forgotten give up the marks of their cells. -/
theorem restrict (h : Exclusive ref cell marked) (hsub : ∀ p b, ref' p = some b → ref p = some b)
    (hmark : ∀ b, cell b → (marked' b ↔ ∃ p, ref' p = some b)) : Exclusive ref' cell marked' where
  cell_of_ref hp := h.cell_of_ref (hsub _ _ hp)
  unique hp hq := h.unique (hsub _ _ hp) (hsub _ _ hq)
  marked_iff hb := hmark _ hb

variable [DecidableEq P]

/-- An unmarked cell is put into an empty place. -/
theorem fill (h : Exclusive ref cell marked) (hp : ref p = none) (hb : cell b) (hfree : ¬marked b) :
    Exclusive (update ref p (some b)) cell fun x => x = b ∨ marked x := by
  have hnone : ∀ q, ref q ≠ some b := fun q hq => hfree (h.marked_of_ref hq)
  constructor
  · intro q x hq
    by_cases hqp : q = p
    · simp only [hqp, update_self, Option.some.injEq] at hq
      exact hq ▸ hb
    · rw [update_of_ne hqp] at hq
      exact h.cell_of_ref hq
  · intro q r x hq hr
    by_cases hqp : q = p
    · by_cases hrp : r = p
      · rw [hqp, hrp]
      · simp only [hqp, update_self, Option.some.injEq] at hq
        rw [update_of_ne hrp, ← hq] at hr
        exact absurd hr (hnone r)
    · rw [update_of_ne hqp] at hq
      by_cases hrp : r = p
      · simp only [hrp, update_self, Option.some.injEq] at hr
        rw [← hr] at hq
        exact absurd hq (hnone q)
      · rw [update_of_ne hrp] at hr
        exact h.unique hq hr
  · intro x hx
    constructor
    · rintro (hxb | hmarked)
      · exact ⟨p, by simp [hxb]⟩
      · obtain ⟨q, hq⟩ := (h.marked_iff hx).mp hmarked
        have hqp : q ≠ p := by
          intro heq
          rw [heq, hp] at hq
          cases hq
        exact ⟨q, by rw [update_of_ne hqp]; exact hq⟩
    · rintro ⟨q, hq⟩
      by_cases hqp : q = p
      · simp only [hqp, update_self, Option.some.injEq] at hq
        exact .inl hq.symm
      · rw [update_of_ne hqp] at hq
        exact .inr (h.marked_of_ref hq)

end Exclusive
end Foundation
end FastIpc
