import FastIpc.Foundation.ByteMemory
import Mathlib.Data.List.Basic

/-!
# Strings

The string functions of `kernel/string.c` the modelled code calls.

Main results:

- Theorem `strcmp_eq_zero_iff`: strings that compare equal are equal.
- Theorem `strncmp_eq_zero_iff`: a bounded comparison looks at the first bytes only.
-/

namespace FastIpc
namespace Kernel

/-- A NUL-terminated string: the bytes before the terminator. -/
structure CString where
  bytes : List (BitVec 8)
  nonzero : 0 ∉ bytes
  deriving DecidableEq

namespace CString

/-- The empty string. -/
def empty : CString := ⟨[], by simp⟩

/-- The string `safestrcpy` leaves in its target: at most `n - 1` bytes. -/
def safestrcpy (t : CString) (n : Nat) : CString where
  bytes := t.bytes.take (n - 1)
  nonzero h := t.nonzero (List.mem_of_mem_take h)

/-- The bytes of an ASCII text. -/
def ofText (text : String) (h : 0 ∉ text.toList.map fun c => BitVec.ofNat 8 c.toNat) : CString :=
  ⟨text.toList.map fun c => BitVec.ofNat 8 c.toNat, h⟩

/-- The string that starts `n` bytes on, within the string. -/
def drop (t : CString) (n : Nat) : CString where
  bytes := t.bytes.drop n
  nonzero h := t.nonzero (List.mem_of_mem_drop h)

/-- The memory a string starts at: its bytes, then the terminator. -/
def byte (t : CString) (k : Nat) : BitVec 8 := t.bytes.getD k 0

theorem safestrcpy_safestrcpy (t : CString) (n : Nat) :
    (t.safestrcpy n).safestrcpy n = t.safestrcpy n := by
  simp [safestrcpy, List.take_take]

theorem safestrcpy_ne_empty {t : CString} {n : Nat} (ht : t ≠ .empty) (hn : 1 < n) :
    t.safestrcpy n ≠ .empty := by
  intro h
  have hbytes : t.bytes.take (n - 1) = [] := congrArg CString.bytes h
  rcases List.take_eq_nil_iff.mp hbytes with hzero | hnil
  · omega
  · exact ht (by cases t; simpa [empty] using hnil)

end CString

/-- `strcmp` on the bytes before the terminators, which compare as 0. -/
def strcmpBytes : List (BitVec 8) → List (BitVec 8) → Int
  | [], [] => 0
  | [], b :: _ => 0 - (b.toNat : Int)
  | a :: _, [] => a.toNat
  | a :: p, b :: q => if a = b then strcmpBytes p q else (a.toNat : Int) - b.toNat

/-- Compare two strings. -/
def strcmp (p q : CString) : Int := strcmpBytes p.bytes q.bytes

theorem toNat_ne_zero (x : BitVec 8) (hx : x ≠ 0) : x.toNat ≠ 0 :=
  fun h => hx (BitVec.eq_of_toNat_eq h)

/-- Two strings compare equal exactly if they are equal. -/
theorem strcmp_eq_zero_iff {p q : CString} : strcmp p q = 0 ↔ p = q := by
  have hbytes : ∀ a b : List (BitVec 8), 0 ∉ a → 0 ∉ b → (strcmpBytes a b = 0 ↔ a = b) := by
    intro a
    induction a with
    | nil =>
      intro b _ hb
      cases b with
      | nil => simp [strcmpBytes]
      | cons y b =>
        have hy : y.toNat ≠ 0 := toNat_ne_zero y fun h => hb (by simp [h])
        simpa [strcmpBytes] using hy
    | cons x a ih =>
      intro b ha hb
      have hx : x.toNat ≠ 0 := toNat_ne_zero x fun h => ha (by simp [h])
      cases b with
      | nil => simpa [strcmpBytes] using hx
      | cons y b =>
        by_cases hxy : x = y
        · subst hxy
          have htail := ih b (fun h => ha (List.mem_cons_of_mem _ h))
            (fun h => hb (List.mem_cons_of_mem _ h))
          simp [strcmpBytes, htail]
        · have hne : (x.toNat : Int) - y.toNat ≠ 0 := by
            have hnat : x.toNat ≠ y.toNat := fun h => hxy (BitVec.eq_of_toNat_eq h)
            omega
          simp [strcmpBytes, hxy, hne]
  unfold strcmp
  rw [hbytes p.bytes q.bytes p.nonzero q.nonzero]
  constructor
  · intro h
    cases p
    cases q
    simpa using h
  · intro h
    rw [h]

/-! ## Bounded comparison -/

/-- `strncmp` of the strings that start at two places of memory. -/
def strncmp (p q : Nat → BitVec 8) : Nat → Int
  | 0 => 0
  | n + 1 =>
    if p 0 ≠ 0 ∧ p 0 = q 0 then strncmp (fun k => p (k + 1)) (fun k => q (k + 1)) n
    else ((p 0).toNat : Int) - (q 0).toNat

theorem strncmp_congr {p q q' : Nat → BitVec 8} {n : Nat} (h : ∀ k < n, q k = q' k) :
    strncmp p q n = strncmp p q' n := by
  induction n generalizing p q q' with
  | zero => rfl
  | succ n ih =>
    have htail : strncmp (fun k => p (k + 1)) (fun k => q (k + 1)) n =
        strncmp (fun k => p (k + 1)) (fun k => q' (k + 1)) n :=
      ih fun k hk => h (k + 1) (by omega)
    simp only [strncmp, h 0 (by omega), htail]

/-- Two strings agree on their first `n` bytes exactly if those prefixes are equal. -/
theorem strncmp_eq_zero_iff {s t : CString} {n : Nat} :
    strncmp s.byte t.byte n = 0 ↔ s.bytes.take n = t.bytes.take n := by
  obtain ⟨a, ha⟩ := s
  obtain ⟨b, hb⟩ := t
  show strncmp (fun k => a.getD k 0) (fun k => b.getD k 0) n = 0 ↔ a.take n = b.take n
  induction n generalizing a b with
  | zero => simp [strncmp]
  | succ n ih =>
    cases a with
    | nil =>
      cases b with
      | nil => simp [strncmp]
      | cons y b =>
        have hy : y.toNat ≠ 0 := toNat_ne_zero y fun h => hb (by simp [h])
        simpa [strncmp] using hy
    | cons x a =>
      have hx : x ≠ 0#8 := fun h => ha (by simp [h])
      cases b with
      | nil => simpa [strncmp, hx] using toNat_ne_zero x hx
      | cons y b =>
        by_cases hxy : x = y
        · subst hxy
          have htail := ih a (fun h => ha (List.mem_cons_of_mem _ h)) b
            (fun h => hb (List.mem_cons_of_mem _ h))
          simpa [strncmp, hx] using htail
        · have hne : (x.toNat : Int) - y.toNat ≠ 0 := by
            have hnat : x.toNat ≠ y.toNat := fun h => hxy (BitVec.eq_of_toNat_eq h)
            omega
          simp [strncmp, hxy, hne]

end Kernel
end FastIpc
