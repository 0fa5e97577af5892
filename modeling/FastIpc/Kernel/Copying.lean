import FastIpc.Foundation.ByteMemory
import Mathlib.Logic.Function.Basic

/-!
# Copying memory

`memmove` of `kernel/string.c` and `mymemmove` of `kernel/vm.c`, which
`copyin` and `copyout` use.  Addresses do not wrap around.  `mymemmove` copies
whole words where both addresses are word aligned, and then stops: what is left after the last
whole word is not copied.

Main results:

- Theorem `memmove_eq`: `memmove` copies the bytes, whatever the overlap.
- Theorem `mymemmove_eq`: how much `mymemmove` copies.
- Theorem `mymemmove_eq_memmove_iff`: when the two agree on every memory.
-/

namespace FastIpc
namespace Kernel

open Foundation

/-! ## The two functions -/

/-- The loop `while(n-- > 0) *d++ = *s++`. -/
def copyForward (m : Memory) (d s : Nat) : Nat → Memory
  | 0 => m
  | n + 1 => copyForward (Function.update m d (m s)) (d + 1) (s + 1) n

/-- The loop `while(n-- > 0) *--d = *--s`. -/
def copyBackward (m : Memory) (d s : Nat) : Nat → Memory
  | 0 => m
  | n + 1 => copyBackward (Function.update m (d - 1) (m (s - 1))) (d - 1) (s - 1) n

/-- The loop `while(n >= 8)`, which copies one word per round. -/
def copyWords (m : Memory) (d s : Nat) : Nat → Memory
  | n + 8 => copyWords (m.writeLE d 8 (m.readLE s 8)) (d + 8) (s + 8) n
  | _ => m

/-- The destination begins inside the source. -/
def RunsInto (dst src n : Nat) : Prop := src < dst ∧ dst < src + n

instance (dst src n : Nat) : Decidable (RunsInto dst src n) := inferInstanceAs (Decidable (_ ∧ _))

/-- `memmove` of the kernel. -/
def memmove (m : Memory) (dst src n : Nat) : Memory :=
  if RunsInto dst src n then
    copyBackward m (dst + n) (src + n) n
  else
    copyForward m dst src n

/-- `mymemmove` works word by word. -/
def CopiesWords (dst src n : Nat) : Prop := 8 ≤ n ∧ src % 8 = 0 ∧ dst % 8 = 0 ∧ ¬RunsInto dst src n

instance (dst src n : Nat) : Decidable (CopiesWords dst src n) :=
  inferInstanceAs (Decidable (_ ∧ _))

/-- `mymemmove`. -/
def mymemmove (m : Memory) (dst src n : Nat) : Memory :=
  if CopiesWords dst src n then
    copyWords m dst src n
  else if RunsInto dst src n then
    copyBackward m (dst + n) (src + n) n
  else
    copyForward m dst src n

/-! ## What they copy -/

theorem copyForward_eq (m : Memory) {d s n : Nat} (h : d ≤ s ∨ s + n ≤ d) :
    copyForward m d s n = m.move d s n := by
  induction n generalizing m d s with
  | zero => rw [copyForward, Memory.move_zero]
  | succ n ih =>
    rw [copyForward, Memory.update_eq_move, ih _ (by omega), Memory.move_append m (by omega),
      Nat.add_comm 1 n]

theorem copyBackward_eq (m : Memory) {d s n : Nat} (h : s ≤ d) :
    copyBackward m (d + n) (s + n) n = m.move d s n := by
  induction n generalizing m with
  | zero => rw [copyBackward, Memory.move_zero]
  | succ n ih =>
    rw [copyBackward, Nat.add_succ_sub_one, Nat.add_succ_sub_one, Memory.update_eq_move, ih,
      Memory.move_prepend m h]

/-- The words that are copied, without what is left after the last one. -/
theorem copyWords_eq (m : Memory) {d s n : Nat} (h : d ≤ s ∨ s + n ≤ d) :
    copyWords m d s n = m.move d s (n / 8 * 8) := by
  induction n using Nat.strong_induction_on generalizing m d s with
  | _ n ih =>
    by_cases hn : 8 ≤ n
    · obtain ⟨k, rfl⟩ := Nat.exists_eq_add_of_le' hn
      rw [copyWords, ih k (by omega) _ (by omega), Memory.writeLE_readLE,
        Memory.move_append m (by omega), show 8 + k / 8 * 8 = (k + 8) / 8 * 8 by omega]
    · rw [copyWords.eq_def, Nat.div_eq_of_lt (Nat.lt_of_not_le hn), Nat.zero_mul, Memory.move_zero]
      split
      next k => omega
      next => rfl

/-- `memmove` copies all bytes. -/
theorem memmove_eq (m : Memory) (dst src n : Nat) : memmove m dst src n = m.move dst src n := by
  unfold memmove
  split
  next h => exact copyBackward_eq m h.1.le
  next h =>
    unfold RunsInto at h
    exact copyForward_eq m (by omega)

/-- The number of bytes that `mymemmove` copies. -/
def movedBytes (dst src n : Nat) : Nat := if CopiesWords dst src n then n / 8 * 8 else n

theorem movedBytes_le (dst src n : Nat) : movedBytes dst src n ≤ n := by
  unfold movedBytes
  split
  next => omega
  next => exact le_rfl

theorem movedBytes_of_le {n : Nat} (dst src : Nat) (hn : n ≤ 8) : movedBytes dst src n = n := by
  unfold movedBytes
  split
  next h =>
    have hle := h.1
    omega
  next => rfl

/-- `mymemmove` copies a front part of the bytes. -/
theorem mymemmove_eq (m : Memory) (dst src n : Nat) :
    mymemmove m dst src n = m.move dst src (movedBytes dst src n) := by
  unfold mymemmove movedBytes
  split
  next h =>
    have hrun := h.2.2.2
    unfold RunsInto at hrun
    exact copyWords_eq m (by omega)
  next => exact memmove_eq m dst src n

/-- `mymemmove` leaves nothing out that changes memory: the bytes stay where they are, or
they are not copied as words, or they are whole words. -/
def MovesAll (dst src n : Nat) : Prop := dst = src ∨ ¬CopiesWords dst src n ∨ n % 8 = 0

/-- `memmove` copies the bytes and leaves the rest of memory alone; `mymemmove` does
the same to every memory exactly if it does not stop before the last byte. -/
theorem mymemmove_eq_memmove_iff (dst src n : Nat) :
    (∀ m, memmove m dst src n = m.move dst src n) ∧
      ((∀ m, mymemmove m dst src n = memmove m dst src n) ↔ MovesAll dst src n) := by
  refine ⟨fun m => memmove_eq m dst src n, ?_⟩
  simp only [mymemmove_eq, memmove_eq]
  constructor
  · intro h
    by_contra hall
    unfold MovesAll at hall
    rw [not_or, not_or, not_not] at hall
    obtain ⟨hne, hwords, hrest⟩ := hall
    have hn := hwords.1
    -- A memory that has a one at the last byte of the source only.
    have hlast := congrFun (h (Function.update (fun _ => 0) (src + (n - 1)) 1)) (dst + (n - 1))
    have hold : ¬(dst ≤ dst + (n - 1) ∧ dst + (n - 1) < dst + movedBytes dst src n) := by
      rw [movedBytes, if_pos hwords]
      omega
    rw [Memory.move_of_not_mem hold, Function.update_of_ne (by omega), Memory.move,
      if_pos (by omega), Nat.add_sub_cancel_left, Function.update_self] at hlast
    exact absurd (show (0 : BitVec 8) = 1 from hlast) (by decide)
  · intro hall m
    rcases hall with rfl | hwords | hrest
    · funext x
      simp only [Memory.move]
      split <;> split <;> first | rfl | (congr 1; omega)
    · rw [movedBytes, if_neg hwords]
    · unfold movedBytes
      split
      next => rw [Nat.div_mul_cancel (Nat.dvd_of_mod_eq_zero hrest)]
      next => rfl

/-- Nine bytes between aligned addresses: the ninth is not copied. -/
theorem mymemmove_drops_ninth :
    mymemmove (fun x => if x = 8 then 1 else 0) 16 0 9 24 = 0 ∧
      memmove (fun x => if x = 8 then 1 else 0) 16 0 9 24 = 1 := by
  decide

/-! ## Sources that are no part of the modelled memory -/

/-- `mymemmove` from a buffer of the kernel at `src` that holds `bytes`. -/
def mymemmoveFrom (m : Memory) (dst src : Nat) (bytes : List (BitVec 8)) : Memory :=
  m.blit dst (bytes.take (movedBytes dst src bytes.length))

theorem mymemmoveFrom_of_not_mem {m : Memory} {dst src x : Nat} {bytes : List (BitVec 8)}
    (h : ¬(dst ≤ x ∧ x < dst + bytes.length)) : mymemmoveFrom m dst src bytes x = m x := by
  have hle := movedBytes_le dst src bytes.length
  refine Memory.blit_of_not_mem ?_
  rw [List.length_take]
  omega

theorem mymemmoveFrom_of_le {bytes : List (BitVec 8)} (h : bytes.length ≤ 8) (m : Memory)
    (dst src : Nat) : mymemmoveFrom m dst src bytes = m.blit dst bytes := by
  rw [mymemmoveFrom, movedBytes_of_le dst src h, List.take_length]

end Kernel
end FastIpc
