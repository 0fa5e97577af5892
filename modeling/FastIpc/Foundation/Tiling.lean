import Mathlib

/-!
# Tilings of a range

A list of ranges, each a start and a length, that follow each other without a gap from one bound
to another.  This is what the chunks of a transfer have to do.

Main results:

- Theorem `Tiles.snoc`: a range at the end of a tiling extends it.
- Theorem `Tiles.pairwise`: the ranges of a tiling are disjoint and in order.
- Theorem `Tiles.exists_range`: they cover all that lies between the bounds.
-/

namespace FastIpc
namespace Foundation

/-- The ranges follow each other from `lo` to `hi`. -/
def Tiles : Nat → List (Nat × Nat) → Nat → Prop
  | lo, [], hi => lo = hi
  | lo, r :: rest, hi => r.1 = lo ∧ Tiles (lo + r.2) rest hi

namespace Tiles

variable {lo mid hi : Nat} {l l' : List (Nat × Nat)}

theorem eq_add_sum (h : Tiles lo l hi) : hi = lo + (l.map Prod.snd).sum := by
  induction l generalizing lo with
  | nil => exact h.symm
  | cons r rest ih => rw [ih h.2, List.map_cons, List.sum_cons, Nat.add_assoc]

theorem append (h : Tiles lo l mid) (h' : Tiles mid l' hi) : Tiles lo (l ++ l') hi := by
  induction l generalizing lo with
  | nil =>
    rw [show lo = mid from h]
    exact h'
  | cons r rest ih => exact ⟨h.1, ih h.2⟩

/-- A range that starts at the end of a tiling extends it. -/
theorem snoc (h : Tiles lo l mid) (n : Nat) : Tiles lo (l ++ [(mid, n)]) (mid + n) :=
  h.append ⟨rfl, rfl⟩

/-- The ranges lie between the bounds. -/
theorem bounds (h : Tiles lo l hi) {r : Nat × Nat} (hr : r ∈ l) : lo ≤ r.1 ∧ r.1 + r.2 ≤ hi := by
  induction l generalizing lo with
  | nil => cases hr
  | cons head rest ih =>
    rcases List.mem_cons.mp hr with rfl | hr
    · have hsum := eq_add_sum h.2
      have hstart := h.1
      omega
    · have hrest := ih h.2 hr
      omega

/-- The ranges are disjoint and in order. -/
theorem pairwise (h : Tiles lo l hi) : l.Pairwise fun r r' => r.1 + r.2 ≤ r'.1 := by
  induction l generalizing lo with
  | nil => exact List.Pairwise.nil
  | cons head rest ih =>
    apply List.Pairwise.cons _ (ih h.2)
    intro r hr
    rw [h.1]
    exact (bounds h.2 hr).1

/-- The ranges cover all that lies between the bounds. -/
theorem exists_range (h : Tiles lo l hi) {x : Nat} (hlo : lo ≤ x) (hhi : x < hi) :
    ∃ r ∈ l, r.1 ≤ x ∧ x < r.1 + r.2 := by
  induction l generalizing lo with
  | nil =>
    have heq : lo = hi := h
    omega
  | cons head rest ih =>
    have hstart := h.1
    by_cases hx : x < lo + head.2
    · exact ⟨head, List.mem_cons_self .., by omega, by omega⟩
    · obtain ⟨r, hr, hrange⟩ := ih h.2 (by omega)
      exact ⟨r, List.mem_cons_of_mem _ hr, hrange⟩

end Tiles

end Foundation
end FastIpc
