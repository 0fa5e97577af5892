import Mathlib.Data.List.Basic
import Mathlib.Data.Nat.ModEq
import Mathlib.Data.Fin.Basic

/-!
# Queues in a cyclic array

A queue kept in an array of `cap` cells with two counters of `w` bits that only ever count
up and wrap around: the cell of a counter is its value modulo `cap`, and the queue is empty if
the counters are equal and full if they differ by `cap`.  The capacity divides the range of the
counters and is smaller than it.

Main results:

- Theorem `CyclicQueue.Holds.used_eq`: the difference of the counters is the number of elements.
-/

namespace FastIpc
namespace Foundation
namespace CyclicQueue

variable {α : Type} {cap w : Nat} [NeZero cap]

/-- The cell that a counter points to. -/
def cell (cap : Nat) [NeZero cap] (c : BitVec w) : Fin cap := Fin.ofNat cap c.toNat

/-- The array holds the elements that were put in and not yet taken out. -/
structure Holds (data : Fin cap → α) (nread nwrite : BitVec w) (put taken : List α) : Prop where
  nwrite_eq : nwrite = BitVec.ofNat w put.length
  nread_eq : nread = BitVec.ofNat w taken.length
  taken_prefix : taken <+: put
  length_le : put.length ≤ taken.length + cap
  stored : ∀ j, taken.length ≤ j → ∀ hj : j < put.length, data (Fin.ofNat cap j) = put[j]

/-- An empty queue, whatever is in the cells. -/
theorem holds_nil (data : Fin cap → α) : Holds data (0 : BitVec w) 0 [] [] where
  nwrite_eq := rfl
  nread_eq := rfl
  taken_prefix := List.prefix_rfl
  length_le := Nat.zero_le _
  stored j _ hj := absurd hj (by simp)

/-- Counting on moves to the cell of the next number. -/
theorem cell_ofNat (hdvd : cap ∣ 2 ^ w) (n : Nat) :
    cell cap (BitVec.ofNat w n) = Fin.ofNat cap n := by
  apply Fin.ext
  simp [cell, Fin.ofNat, Nat.mod_mod_of_dvd _ hdvd]

/-- The difference of two counters of which one is ahead. -/
theorem toNat_ofNat_sub {d : Nat} (hd : d < 2 ^ w) (n : Nat) :
    (BitVec.ofNat w (n + d) - BitVec.ofNat w n).toNat = d := by
  rw [BitVec.ofNat_add, BitVec.add_comm, BitVec.add_sub_cancel, BitVec.toNat_ofNat,
    Nat.mod_eq_of_lt hd]

/-- Two numbers that are close to each other have different cells. -/
theorem ofNat_ne {i j : Nat} (hlt : i < j) (hclose : j < i + cap) :
    Fin.ofNat cap i ≠ Fin.ofNat cap j := by
  intro heq
  have hmod : i ≡ j [MOD cap] := congrArg Fin.val heq
  have hdvd : cap ∣ j - i := (Nat.modEq_iff_dvd' hlt.le).mp hmod
  have hle := Nat.le_of_dvd (by omega) hdvd
  omega

namespace Holds

variable {data : Fin cap → α} {nread nwrite : BitVec w} {put taken : List α}

section

variable (h : Holds data nread nwrite put taken)
include h

theorem taken_le : taken.length ≤ put.length :=
  h.taken_prefix.length_le

/-- The difference of the counters is the number of elements. -/
theorem used_eq (hlt : cap < 2 ^ w) : (nwrite - nread).toNat = put.length - taken.length := by
  have hle := h.taken_le
  have hcap := h.length_le
  obtain ⟨d, hd⟩ := Nat.exists_eq_add_of_le hle
  rw [h.nwrite_eq, h.nread_eq, hd, toNat_ofNat_sub (by omega), Nat.add_sub_cancel_left]

/-- The queue is empty if the counters are equal. -/
theorem empty_iff (hlt : cap < 2 ^ w) : nread = nwrite ↔ taken.length = put.length := by
  have hused := h.used_eq hlt
  have hle := h.taken_le
  constructor
  · rintro rfl
    rw [BitVec.sub_self] at hused
    simp only [BitVec.toNat_zero] at hused
    omega
  · intro heq
    rw [h.nread_eq, h.nwrite_eq, heq]

/-- The queue is full if the counters differ by the capacity. -/
theorem full_iff (hlt : cap < 2 ^ w) :
    nwrite = nread + BitVec.ofNat w cap ↔ put.length = taken.length + cap := by
  have hused := h.used_eq hlt
  have hle := h.taken_le
  constructor
  · intro heq
    rw [heq, BitVec.add_comm, BitVec.add_sub_cancel, BitVec.toNat_ofNat,
      Nat.mod_eq_of_lt hlt] at hused
    omega
  · intro heq
    rw [h.nwrite_eq, h.nread_eq, heq, BitVec.ofNat_add]

/-- Storing in the cell of the write counter puts an element in, unless the queue is full. -/
theorem push (hdvd : cap ∣ 2 ^ w) (hlt : cap < 2 ^ w) (hroom : nwrite ≠ nread + BitVec.ofNat w cap)
    (a : α) :
    Holds (Function.update data (cell cap nwrite) a) nread (nwrite + 1) (put ++ [a]) taken := by
  have hnotfull : put.length ≠ taken.length + cap := fun heq => hroom ((h.full_iff hlt).mpr heq)
  have hcap := h.length_le
  constructor
  · rw [h.nwrite_eq, List.length_append, List.length_singleton, BitVec.ofNat_add]
    rfl
  · exact h.nread_eq
  · exact h.taken_prefix.trans (List.prefix_append _ _)
  · rw [List.length_append, List.length_singleton]
    omega
  · intro j hlo hj
    rw [h.nwrite_eq, cell_ofNat hdvd]
    rw [List.length_append, List.length_singleton] at hj
    by_cases hlast : j = put.length
    · subst hlast
      rw [Function.update_self, List.getElem_concat_length rfl]
    · have hin : j < put.length := by omega
      rw [Function.update_of_ne (ofNat_ne hin (by omega)), h.stored j hlo hin,
        List.getElem_append_left hin]

end

/-- Counting the write counter down takes the youngest element out again. -/
theorem unpush {a : α} (h : Holds data nread nwrite (put ++ [a]) taken) (hdvd : cap ∣ 2 ^ w)
    (hle : taken.length ≤ put.length) :
    data (cell cap (nwrite - 1)) = a ∧ Holds data nread (nwrite - 1) put taken := by
  have hcap := h.length_le
  have hlast : put.length < (put ++ [a]).length := by simp
  have hdown : nwrite - 1 = BitVec.ofNat w put.length := by
    rw [h.nwrite_eq, List.length_append, List.length_singleton, BitVec.ofNat_add]
    exact BitVec.add_sub_cancel _ _
  constructor
  · rw [hdown, cell_ofNat hdvd, h.stored _ hle hlast, List.getElem_concat_length rfl]
  constructor
  · exact hdown
  · exact h.nread_eq
  · exact List.prefix_of_prefix_length_le h.taken_prefix (List.prefix_append _ _) hle
  · rw [List.length_append, List.length_singleton] at hcap
    omega
  · intro j hlo hj
    rw [h.stored j hlo (by omega), List.getElem_append_left hj]

/-- Reading the cell of the read counter takes the oldest element out. -/
theorem pop (h : Holds data nread nwrite put taken) (hdvd : cap ∣ 2 ^ w) (hlt : cap < 2 ^ w)
    (hsome : nread ≠ nwrite) :
    Holds data (nread + 1) nwrite put (taken ++ [data (cell cap nread)]) := by
  have hin : taken.length < put.length :=
    lt_of_le_of_ne h.taken_le fun heq => hsome ((h.empty_iff hlt).mpr heq)
  have hdata : data (cell cap nread) = put[taken.length] := by
    rw [h.nread_eq, cell_ofNat hdvd, h.stored _ le_rfl hin]
  have hcap := h.length_le
  constructor
  · exact h.nwrite_eq
  · rw [h.nread_eq, List.length_append, List.length_singleton, BitVec.ofNat_add]
    rfl
  · rw [hdata]
    obtain ⟨rest, rfl⟩ := h.taken_prefix
    cases rest with
    | nil => simp at hin
    | cons a rest => exact ⟨rest, by simp⟩
  · rw [List.length_append, List.length_singleton]
    omega
  · intro j hlo hj
    rw [List.length_append, List.length_singleton] at hlo
    exact h.stored j (by omega) hj

end Holds

/-! ## The elements of a queue -/

/-- The elements of the queue, oldest first. -/
def Contents (data : Fin cap → α) (nread nwrite : BitVec w) (l : List α) : Prop :=
  ∃ taken, Holds data nread nwrite (taken ++ l) taken

theorem contents_nil (data : Fin cap → α) : Contents data (0 : BitVec w) 0 [] :=
  ⟨[], holds_nil data⟩

namespace Contents

variable {data : Fin cap → α} {nread nwrite : BitVec w} {l : List α} {a : α}

theorem empty_iff (h : Contents data nread nwrite l) (hlt : cap < 2 ^ w) :
    nread = nwrite ↔ l = [] := by
  obtain ⟨taken, h⟩ := h
  rw [h.empty_iff hlt, List.length_append, ← List.length_eq_zero_iff]
  omega

/-- The difference of the counters is the number of elements. -/
theorem used_eq (h : Contents data nread nwrite l) (hlt : cap < 2 ^ w) :
    (nwrite - nread).toNat = l.length := by
  obtain ⟨taken, h⟩ := h
  rw [h.used_eq hlt, List.length_append, Nat.add_sub_cancel_left]

/-- Storing in the cell of the write counter adds an element. -/
theorem push (h : Contents data nread nwrite l) (hdvd : cap ∣ 2 ^ w) (hlt : cap < 2 ^ w)
    (hroom : l.length < cap) (a : α) :
    Contents (Function.update data (cell cap nwrite) a) nread (nwrite + 1) (l ++ [a]) := by
  obtain ⟨taken, h⟩ := h
  have hnotfull : nwrite ≠ nread + BitVec.ofNat w cap := by
    intro heq
    have hfull := (h.full_iff hlt).mp heq
    rw [List.length_append] at hfull
    omega
  have hpush := h.push hdvd hlt hnotfull a
  rw [List.append_assoc] at hpush
  exact ⟨taken, hpush⟩

/-- The cell of the read counter has the oldest element. -/
theorem pop (h : Contents data nread nwrite (a :: l)) (hdvd : cap ∣ 2 ^ w) (hlt : cap < 2 ^ w) :
    data (cell cap nread) = a ∧ Contents data (nread + 1) nwrite l := by
  obtain ⟨taken, h⟩ := h
  have hsome : nread ≠ nwrite := by
    intro heq
    have hempty := (h.empty_iff hlt).mp heq
    rw [List.length_append, List.length_cons] at hempty
    omega
  have hpop := h.pop hdvd hlt hsome
  have hdata : data (cell cap nread) = a := by
    have hlt' : taken.length < (taken ++ a :: l).length := by simp
    rw [h.nread_eq, cell_ofNat hdvd, h.stored _ le_rfl hlt', List.getElem_append_right le_rfl]
    simp
  refine ⟨hdata, taken ++ [a], ?_⟩
  rw [hdata] at hpop
  rwa [List.append_assoc]

/-- Storing in the cell of the write counter leaves the elements of the queue alone. -/
theorem cell_ne (h : Contents data nread nwrite l) (hdvd : cap ∣ 2 ^ w)
    (hroom : l.length < cap) {c : BitVec w} (hc : (c - nread).toNat < l.length) :
    cell cap c ≠ cell cap nwrite := by
  obtain ⟨taken, h⟩ := h
  obtain ⟨k, hk⟩ : ∃ k, k = (c - nread).toNat := ⟨_, rfl⟩
  have hcount : c = BitVec.ofNat w (taken.length + k) := by
    rw [BitVec.ofNat_add, ← h.nread_eq, hk, BitVec.ofNat_toNat, BitVec.setWidth_eq,
      BitVec.add_comm, BitVec.sub_add_cancel]
  rw [hcount, h.nwrite_eq, cell_ofNat hdvd, cell_ofNat hdvd, List.length_append]
  exact ofNat_ne (by omega) (by omega)

end Contents

end CyclicQueue
end Foundation
end FastIpc
