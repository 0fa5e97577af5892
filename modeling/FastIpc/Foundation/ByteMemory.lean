import Mathlib.Algebra.Order.Group.Nat
import Mathlib.Data.Nat.Basic

/-!
# Byte-addressed memory and little-endian words

A memory maps every address to a byte.  Multi-byte values are stored little
endian; a value that was stored is loaded back, and an access outside the stored
range is not affected.

Main results:

- Theorem `readLE_writeLE`: a stored value is loaded back.
- Theorem `readLE_congr`: a load depends on the bytes it covers only.
- Theorems `move_append` and `move_prepend`: when a copy can be made in two parts.
-/

namespace FastIpc
namespace Foundation

/-- A byte-addressed memory. -/
abbrev Memory := Nat → BitVec 8

namespace Memory

/-- Byte `k` of a number, counted from the least significant one. -/
def byteOf (w k : Nat) : BitVec 8 := BitVec.ofNat 8 (w / 256 ^ k)

/-- Load `n` bytes at `a`, least significant byte first. -/
def readLE (m : Memory) (a : Nat) : Nat → Nat
  | 0 => 0
  | n + 1 => (m a).toNat + 256 * readLE m (a + 1) n

/-- Store the low `n` bytes of `w` at `a`. -/
def writeLE (m : Memory) (a n w : Nat) : Memory := fun x =>
  if a ≤ x ∧ x < a + n then byteOf w (x - a) else m x

/-- Set `n` bytes at `a` to `c`. -/
def fill (m : Memory) (a n : Nat) (c : BitVec 8) : Memory := fun x =>
  if a ≤ x ∧ x < a + n then c else m x

/-- Store a list of bytes at `a`. -/
def blit (m : Memory) (a : Nat) (bytes : List (BitVec 8)) : Memory := fun x =>
  if a ≤ x ∧ x < a + bytes.length then bytes.getD (x - a) 0 else m x

/-- Copy `n` bytes from `src` to `dst`. -/
def move (m : Memory) (dst src n : Nat) : Memory := fun x =>
  if dst ≤ x ∧ x < dst + n then m (src + (x - dst)) else m x

variable {m : Memory} {a b k n w x : Nat}

theorem writeLE_of_lt (h : x < a) : writeLE m a n w x = m x := by
  have hout : ¬(a ≤ x ∧ x < a + n) := by omega
  simp [writeLE, hout]

theorem writeLE_of_ge (h : a + n ≤ x) : writeLE m a n w x = m x := by
  have hout : ¬(a ≤ x ∧ x < a + n) := by omega
  simp [writeLE, hout]

theorem fill_of_mem {c : BitVec 8} (h : a ≤ x) (h' : x < a + n) : fill m a n c x = c := by
  simp [fill, h, h']

theorem fill_of_not_mem {c : BitVec 8} (h : ¬(a ≤ x ∧ x < a + n)) : fill m a n c x = m x := by
  simp [fill, h]

theorem blit_of_not_mem {bytes : List (BitVec 8)} (h : ¬(a ≤ x ∧ x < a + bytes.length)) :
    blit m a bytes x = m x := by
  simp [blit, h]

theorem move_of_not_mem {dst src : Nat} (h : ¬(dst ≤ x ∧ x < dst + n)) :
    move m dst src n x = m x := by
  simp [move, h]

/-- A load depends on the bytes it covers only. -/
theorem readLE_congr {m' : Memory} (h : ∀ x, a ≤ x → x < a + n → m' x = m x) :
    readLE m' a n = readLE m a n := by
  induction n generalizing a with
  | zero => rfl
  | succ n ih =>
    have hrest : readLE m' (a + 1) n = readLE m (a + 1) n :=
      ih fun x hlo hhi => h x (by omega) (by omega)
    simp [readLE, h a (Nat.le_refl a) (by omega), hrest]

theorem readLE_lt (m : Memory) (a n : Nat) : readLE m a n < 256 ^ n := by
  induction n generalizing a with
  | zero => simp [readLE]
  | succ n ih =>
    have hbyte := (m a).isLt
    have hrest := ih (a + 1)
    simp only [readLE, Nat.pow_succ]
    omega

/-- Loading the bytes of a number gives the number. -/
theorem readLE_of_bytes (h : ∀ k < n, m (a + k) = byteOf w k) : readLE m a n = w % 256 ^ n := by
  induction n generalizing a w with
  | zero => simp [readLE, Nat.mod_one]
  | succ n ih =>
    have hlow : (m a).toNat = w % 256 := by
      have hbyte := h 0 (by omega)
      simp [byteOf] at hbyte
      simp [hbyte]
    have hhigh : readLE m (a + 1) n = w / 256 % 256 ^ n := by
      refine ih fun k hk => ?_
      have hbyte := h (k + 1) (by omega)
      rw [show a + 1 + k = a + (k + 1) by omega, hbyte]
      simp [byteOf, Nat.pow_succ', Nat.div_div_eq_div_mul]
    rw [readLE, hlow, hhigh, Nat.pow_succ', Nat.mod_mul]

/-- A stored value is loaded back. -/
theorem readLE_writeLE (h : w < 256 ^ n) : readLE (writeLE m a n w) a n = w := by
  rw [readLE_of_bytes (w := w), Nat.mod_eq_of_lt h]
  intro k hk
  have hin : a ≤ a + k ∧ a + k < a + n := by omega
  simp [writeLE, hin]

/-- A store leaves disjoint loads alone. -/
theorem readLE_writeLE_of_disjoint (h : b + k ≤ a ∨ a + n ≤ b) :
    readLE (writeLE m a n w) b k = readLE m b k := by
  refine readLE_congr fun x hlo hhi => ?_
  rcases h with h | h
  · exact writeLE_of_lt (by omega)
  · exact writeLE_of_ge (by omega)

/-- A load from a zeroed range is zero. -/
theorem readLE_fill_zero (hlo : a ≤ b) (hhi : b + k ≤ a + n) : readLE (fill m a n 0) b k = 0 := by
  induction k generalizing b with
  | zero => rfl
  | succ k ih =>
    rw [readLE, fill_of_mem hlo (by omega), ih (by omega) (by omega)]
    rfl

/-- The bytes of a loaded number are the bytes of memory. -/
theorem byteOf_readLE (m : Memory) (hk : k < n) : byteOf (m.readLE a n) k = m (a + k) := by
  induction n generalizing a k with
  | zero => omega
  | succ n ih =>
    have hbyte := (m a).isLt
    cases k with
    | zero =>
      apply BitVec.eq_of_toNat_eq
      simp only [byteOf, readLE, BitVec.toNat_ofNat, Nat.pow_zero, Nat.div_one, Nat.add_zero]
      omega
    | succ k =>
      have hshift : m.readLE a (n + 1) / 256 ^ (k + 1) = m.readLE (a + 1) n / 256 ^ k := by
        rw [readLE, Nat.pow_succ', ← Nat.div_div_eq_div_mul, Nat.add_mul_div_left _ _ (by decide),
          Nat.div_eq_of_lt hbyte, Nat.zero_add]
      rw [byteOf, hshift, ← byteOf, ih (by omega), show a + 1 + k = a + (k + 1) by omega]

/-- Storing what was loaded copies bytes. -/
theorem writeLE_readLE (m : Memory) (d s n : Nat) :
    m.writeLE d n (m.readLE s n) = m.move d s n := by
  funext x
  unfold writeLE move
  split
  next h => exact byteOf_readLE m (by omega)
  next => rfl

@[simp] theorem move_zero (m : Memory) (d s : Nat) : m.move d s 0 = m := by
  funext x
  exact move_of_not_mem (by omega)

/-- Storing one byte is a copy. -/
theorem update_eq_move (m : Memory) (d s : Nat) : Function.update m d (m s) = m.move d s 1 := by
  funext x
  unfold move
  by_cases hx : x = d
  · rw [if_pos (by omega), hx, Function.update_self, Nat.sub_self, Nat.add_zero]
  · rw [if_neg (by omega), Function.update_of_ne hx]

/-- A copy made in two parts, the front first: right unless the front part of the destination
lies over the later part of the source. -/
theorem move_append (m : Memory) {d s : Nat} (h : d ≤ s ∨ s + (a + b) ≤ d) :
    (m.move d s a).move (d + a) (s + a) b = m.move d s (a + b) := by
  funext x
  by_cases hback : d + a ≤ x ∧ x < d + a + b
  · have hread : ¬(d ≤ s + a + (x - (d + a)) ∧ s + a + (x - (d + a)) < d + a) := by omega
    rw [move, if_pos hback, move_of_not_mem hread, move, if_pos (by omega),
      show s + a + (x - (d + a)) = s + (x - d) by omega]
  · rw [move_of_not_mem hback]
    by_cases hfront : d ≤ x ∧ x < d + a
    · rw [move, if_pos hfront, move, if_pos (by omega)]
    · rw [move_of_not_mem hfront, move_of_not_mem (by omega)]

/-- A copy made in two parts, the back first. -/
theorem move_prepend (m : Memory) {d s : Nat} (h : s ≤ d) :
    (m.move (d + a) (s + a) b).move d s a = m.move d s (a + b) := by
  funext x
  by_cases hfront : d ≤ x ∧ x < d + a
  · have hread : ¬(d + a ≤ s + (x - d) ∧ s + (x - d) < d + a + b) := by omega
    rw [move, if_pos hfront, move_of_not_mem hread, move, if_pos (by omega)]
  · rw [move_of_not_mem hfront]
    by_cases hback : d + a ≤ x ∧ x < d + a + b
    · rw [move, if_pos hback, move, if_pos (by omega),
        show s + a + (x - (d + a)) = s + (x - d) by omega]
    · rw [move_of_not_mem hback, move_of_not_mem (by omega)]

end Memory

end Foundation
end FastIpc
