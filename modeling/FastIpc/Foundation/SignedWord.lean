import Mathlib.Data.BitVec
import Mathlib.Tactic.Ring

/-!
# Counters that pass through a narrower signed integer

A 64-bit counter that is only ever read through a 32-bit `int` and only ever
written from one holds the sign extension of the low 32 bits of its true value.
The lemmas here say that differences of two such counters, taken in 64-bit
unsigned arithmetic and narrowed to `int` again, are the differences of the
true values as long as those are small, whatever the true values themselves are.

Main results:

- Theorem `narrow_widen`: narrowing undoes sign extension.
- Theorem `narrow_encode_sub`: differences survive the representation.
- Theorem `encode_add`: incrementing through `int` keeps it.
-/

namespace FastIpc
namespace Foundation

/-- Conversion of a 64-bit value to `int`: the low 32 bits. -/
def narrow (v : BitVec 64) : BitVec 32 := v.setWidth 32

/-- Conversion of an `int` to a 64-bit value: sign extension. -/
def widen (v : BitVec 32) : BitVec 64 := v.signExtend 64

/-- What a 64-bit counter of true value `n` holds once written through `int`. -/
def encode (n : Nat) : BitVec 64 := widen (BitVec.ofNat 32 n)

/-- Narrowing undoes sign extension. -/
@[simp]
theorem narrow_widen (v : BitVec 32) : narrow (widen v) = v := by
  unfold narrow widen
  apply BitVec.eq_of_getLsbD_eq
  intro i hi
  rw [BitVec.getLsbD_setWidth, BitVec.getLsbD_signExtend]
  have hi' : i < 64 := by omega
  simp [hi, hi']

/-- Narrowing is a homomorphism for addition. -/
theorem narrow_add (v w : BitVec 64) : narrow (v + w) = narrow v + narrow w :=
  BitVec.setWidth_add v w (by decide)

/-- Narrowing is a homomorphism for subtraction. -/
theorem narrow_sub (v w : BitVec 64) : narrow (v - w) = narrow v - narrow w := by
  have hsum : narrow v = narrow (v - w) + narrow w := by rw [← narrow_add, BitVec.sub_add_cancel]
  rw [hsum, BitVec.add_sub_cancel]

/-- The narrowed value of an encoded counter is its true value modulo `2^32`. -/
@[simp]
theorem narrow_encode (n : Nat) : narrow (encode n) = BitVec.ofNat 32 n := narrow_widen _

/-- Incrementing a counter through `int` encodes the incremented value. -/
theorem encode_add (n k : Nat) :
    widen (narrow (encode n + widen (BitVec.ofNat 32 k))) = encode (n + k) := by
  rw [narrow_add, narrow_encode, narrow_widen, BitVec.ofNat_add_ofNat]
  rfl

/-- A difference of encoded counters is the difference of the true values. -/
theorem narrow_encode_sub {m n : Nat} (h : n ≤ m) :
    narrow (encode m - encode n) = BitVec.ofNat 32 (m - n) := by
  rw [narrow_sub, narrow_encode, narrow_encode]
  have hm : BitVec.ofNat 32 m = BitVec.ofNat 32 (m - n) + BitVec.ofNat 32 n := by
    rw [BitVec.ofNat_add_ofNat, Nat.sub_add_cancel h]
  rw [hm, BitVec.add_sub_cancel]

/-- A small true value reads back unchanged as a signed `int`. -/
theorem toInt_ofNat_of_lt {n : Nat} (h : n < 2 ^ 31) : (BitVec.ofNat 32 n).toInt = n := by
  rw [BitVec.toInt_eq_toNat_of_lt]
  · rw [BitVec.toNat_ofNat, Nat.mod_eq_of_lt (by omega)]
  · rw [BitVec.toNat_ofNat, Nat.mod_eq_of_lt (by omega)]
    omega

end Foundation
end FastIpc
