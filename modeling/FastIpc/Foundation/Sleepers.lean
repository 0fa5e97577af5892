import Mathlib.Logic.Function.Basic

/-!
# Sleeping and waking

Threads that sleep on channels: `asleep p` is the channel that thread `p` sleeps on, if it
does.
-/

namespace FastIpc
namespace Foundation

variable {P C : Type} [DecidableEq C]

/-- Wake every thread that sleeps on a channel. -/
def wakeAll (asleep : P → Option C) (chan : C) : P → Option C := fun p =>
  if asleep p = some chan then none else asleep p

/-- Who still sleeps did so on another channel. -/
theorem wakeAll_eq_some {asleep : P → Option C} {chan c : C} {p : P} :
    wakeAll asleep chan p = some c ↔ asleep p = some c ∧ c ≠ chan := by
  unfold wakeAll
  split
  next h =>
    constructor
    · intro hnone
      cases hnone
    · rintro ⟨hsome, hne⟩
      exact absurd (Option.some.inj (hsome.symm.trans h)) hne
  next h =>
    constructor
    · intro hsome
      refine ⟨hsome, ?_⟩
      rintro rfl
      exact h hsome
    · exact fun hsome => hsome.1

end Foundation
end FastIpc
