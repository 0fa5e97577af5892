import FastIpc.Foundation.ByteMemory
import FastIpc.Foundation.FaultState
import Mathlib.Data.List.Nodup

/-!
# The physical page allocator

The functions of `kernel/kalloc.c`.  Free pages form a list threaded through
their own first words; `kalloc` takes its head and `kfree` pushes a page.
Other processors allocate and free pages at any time, so a call of
`kalloc` may find the list empty although the caller has not emptied it: which
calls do is part of the input of a run.

Main results:

- Theorem `Threaded.kalloc`: an allocation takes the first page or fails.
- Theorem `Threaded.kfree`: a freed page becomes the first page of the list.
-/

namespace FastIpc
namespace Kernel

open Foundation

/-- Bytes in a page, `PGSIZE`. -/
def pgSize : Nat := 4096

/-- The end of physical memory, `PHYSTOP`. -/
def phyStop : Nat := 0x80000000 + 128 * 1024 * 1024

/-- Drop the offset in a page, `PGROUNDDOWN`. -/
def pgRoundDown (a : Nat) : Nat := a / pgSize * pgSize

/-- Round up to a page boundary, `PGROUNDUP`. -/
def pgRoundUp (a : Nat) : Nat := (a + pgSize - 1) / pgSize * pgSize

/-- Ways in which kernel code stops the machine. -/
inductive Fault where
  | panic (message : String)
  /-- An access to the ring table outside its slots. -/
  | outOfBounds (index : Int)
  /-- A recursion that the kernel stack does not hold. -/
  | stackOverflow
  deriving DecidableEq, Repr

/-- What the linker decides: the first address after the kernel and its trampoline page. -/
structure Image where
  endAddr : Nat
  trampoline : Nat
  trampoline_aligned : trampoline % pgSize = 0
  trampoline_pos : 0 < trampoline
  trampoline_lt : trampoline < endAddr
  endAddr_le : endAddr ≤ phyStop

/-- Physical memory with the allocator's list head.  `fails` tells, for the next
calls of `kalloc`, which of them find the list empty. -/
structure Ram where
  mem : Memory
  freelist : Nat
  fails : List Bool

/-- Code that works on physical memory only. -/
abbrev RamM := FaultM Fault Ram

/-- Free the page at `pa`: fill it with junk and push it on the list. -/
def kfree (im : Image) (pa : Nat) : RamM Unit := fun s =>
  if pa % pgSize ≠ 0 ∨ pa < im.endAddr ∨ phyStop ≤ pa then
    .error (.panic "kfree")
  else
    .ok ((), { s with
      mem := (s.mem.fill pa pgSize 1).writeLE pa 8 s.freelist
      freelist := pa })

/-- Take a page from the list and fill it with junk; `0` if there is none. -/
def kalloc : RamM Nat := fun s =>
  if s.fails.head? = some true ∨ s.freelist = 0 then
    .ok (0, { s with fails := s.fails.tail })
  else
    .ok (s.freelist, {
      mem := s.mem.fill s.freelist pgSize 5
      freelist := s.mem.readLE s.freelist 8
      fails := s.fails.tail })

theorem exists_kalloc (s : Ram) : ∃ p t, kalloc s = .ok (p, t) := by
  unfold kalloc
  split
  next => exact ⟨_, _, rfl⟩
  next => exact ⟨_, _, rfl⟩

/-- A page that `kfree` accepts. -/
structure IsPage (im : Image) (p : Nat) : Prop where
  aligned : p % pgSize = 0
  endAddr_le : im.endAddr ≤ p
  lt_phyStop : p < phyStop

namespace IsPage

variable {im : Image} {p q x : Nat}

theorem pos (h : IsPage im p) : 0 < p :=
  lt_of_lt_of_le im.trampoline_pos (le_trans im.trampoline_lt.le h.endAddr_le)

theorem not_rejected (h : IsPage im p) : ¬(p % pgSize ≠ 0 ∨ p < im.endAddr ∨ phyStop ≤ p) := by
  have haligned := h.aligned
  have hend := h.endAddr_le
  have hlt := h.lt_phyStop
  omega

theorem eq_of_mem (hp : p % pgSize = 0) (hq : q % pgSize = 0) (hpx : p ≤ x)
    (hxp : x < p + pgSize) (hqx : q ≤ x) (hxq : x < q + pgSize) : p = q := by
  unfold pgSize at *
  omega

end IsPage

/-- `l` is the list threaded through the pages' first words from `head` on. -/
def Threaded (m : Memory) : Nat → List Nat → Prop
  | head, [] => head = 0
  | head, p :: l => head = p ∧ p ≠ 0 ∧ Threaded m (m.readLE p 8) l

instance instDecidableThreaded (m : Memory) :
    (head : Nat) → (l : List Nat) → Decidable (Threaded m head l)
  | head, [] => inferInstanceAs (Decidable (head = 0))
  | head, p :: l =>
    have := instDecidableThreaded m (m.readLE p 8) l
    inferInstanceAs (Decidable (head = p ∧ p ≠ 0 ∧ Threaded m (m.readLE p 8) l))

namespace Threaded

variable {im : Image} {m m' : Memory} {head p : Nat} {l l' : List Nat} {s t : Ram}

/-- A threaded list is determined by memory and its head. -/
theorem unique (h : Threaded m head l) (h' : Threaded m head l') : l = l' := by
  induction l generalizing head l' with
  | nil =>
    cases l' with
    | nil => rfl
    | cons q l' => exact (h'.2.1 (h'.1.symm.trans h)).elim
  | cons p l ih =>
    cases l' with
    | nil => exact (h.2.1 (h.1.symm.trans h')).elim
    | cons q l' =>
      obtain ⟨rfl, -, hl⟩ := h
      obtain ⟨rfl, -, hl'⟩ := h'
      rw [ih hl hl']

theorem congr (h : Threaded m head l)
    (hsame : ∀ p ∈ l, m'.readLE p 8 = m.readLE p 8) : Threaded m' head l := by
  induction l generalizing head with
  | nil => exact h
  | cons p l ih =>
    refine ⟨h.1, h.2.1, ?_⟩
    rw [hsame p (by simp)]
    exact ih h.2.2 fun q hq => hsame q (by simp [hq])

/-- An allocation takes the first page of the list, or fails and changes nothing. -/
theorem kalloc (h : Threaded s.mem s.freelist l) (hnodup : l.Nodup)
    (haligned : ∀ p ∈ l, p % pgSize = 0) (hrun : Kernel.kalloc s = .ok (p, t)) :
    (p = 0 ∧ t = { s with fails := s.fails.tail }) ∨
      ∃ rest, l = p :: rest ∧ p ≠ 0 ∧ t.mem = s.mem.fill p pgSize 5 ∧
        Threaded t.mem t.freelist rest := by
  unfold Kernel.kalloc at hrun
  split at hrun
  next =>
    cases hrun
    exact .inl ⟨rfl, rfl⟩
  next hok =>
    cases hrun
    cases l with
    | nil => exact (hok (.inr h)).elim
    | cons q rest =>
      obtain ⟨rfl, hpos, hrest⟩ := h
      refine .inr ⟨rest, rfl, hpos, rfl, hrest.congr fun q hq => ?_⟩
      have hne : s.freelist ≠ q := fun heq => (List.nodup_cons.mp hnodup).1 (heq ▸ hq)
      refine Memory.readLE_congr fun x hlo hhi => Memory.fill_of_not_mem fun hx => hne ?_
      exact IsPage.eq_of_mem (haligned _ (by simp)) (haligned q (by simp [hq])) hx.1 hx.2 hlo
        (by unfold pgSize; omega)

/-- A freed page becomes the first page of the list. -/
theorem kfree (h : Threaded s.mem s.freelist l) (hp : IsPage im p) (hfresh : p ∉ l)
    (haligned : ∀ q ∈ l, q % pgSize = 0) (hhead : s.freelist < 256 ^ 8) :
    ∃ t, Kernel.kfree im p s = .ok ((), t) ∧ Threaded t.mem t.freelist (p :: l) ∧
      t.fails = s.fails ∧ ∀ x, ¬(p ≤ x ∧ x < p + pgSize) → t.mem x = s.mem x := by
  have hout : ∀ x, ¬(p ≤ x ∧ x < p + pgSize) →
      ((s.mem.fill p pgSize 1).writeLE p 8 s.freelist) x = s.mem x := by
    intro x hx
    have hx' : ¬(p ≤ x ∧ x < p + 8) := by
      unfold pgSize at hx
      omega
    rw [Memory.writeLE, if_neg hx', Memory.fill_of_not_mem hx]
  refine ⟨_, if_neg hp.not_rejected, ⟨rfl, hp.pos.ne', ?_⟩, rfl, hout⟩
  rw [Memory.readLE_writeLE hhead]
  refine h.congr fun q hq => Memory.readLE_congr fun x hlo hhi => hout x fun hx => hfresh ?_
  have heq : p = q :=
    IsPage.eq_of_mem hp.aligned (haligned q hq) hx.1 hx.2 hlo (by unfold pgSize; omega)
  exact heq ▸ hq

end Threaded

/-- The next `n` allocations succeed. -/
def Ram.Supplies (s : Ram) (n : Nat) : Prop :=
  (∀ b ∈ s.fails.take n, b = false) ∧ ∃ l, Threaded s.mem s.freelist l ∧ n ≤ l.length

theorem Ram.Supplies.mono {s : Ram} {m n : Nat} (h : s.Supplies n) (hm : m ≤ n) : s.Supplies m := by
  obtain ⟨hfails, l, hl, hlen⟩ := h
  refine ⟨fun b hb => hfails b ?_, l, hl, by omega⟩
  rw [← Nat.min_eq_left hm, ← List.take_take] at hb
  exact List.mem_of_mem_take hb

/-- The first of a number of successful allocations. -/
theorem Ram.Supplies.kalloc {s t : Ram} {l : List Nat} {n p : Nat} (h : s.Supplies (n + 1))
    (hl : Threaded s.mem s.freelist l) (hnodup : l.Nodup) (haligned : ∀ p ∈ l, p % pgSize = 0)
    (hrun : Kernel.kalloc s = .ok (p, t)) : p ≠ 0 ∧ t.Supplies n := by
  obtain ⟨hfails, l', hl', hlen⟩ := h
  obtain rfl := hl'.unique hl
  have hfails' : t.fails = s.fails.tail := by
    unfold Kernel.kalloc at hrun
    split at hrun
    next => cases hrun; rfl
    next => cases hrun; rfl
  rcases hl.kalloc hnodup haligned hrun with ⟨rfl, rfl⟩ | ⟨rest, rfl, hpos, -, hrest⟩
  · exfalso
    unfold Kernel.kalloc at hrun
    split at hrun
    next hfail =>
      rcases hfail with hhead | hempty
      · cases hs : s.fails with
        | nil => simp [hs] at hhead
        | cons b fails =>
          simp only [hs, List.head?_cons, Option.some.injEq] at hhead
          have := hfails b (by simp [hs])
          simp [hhead] at this
      · cases l' with
        | nil => simp at hlen
        | cons q l' => exact hl.2.1 (hl.1.symm.trans hempty)
    next hok =>
      simp only [Except.ok.injEq, Prod.mk.injEq] at hrun
      exact hok (.inr hrun.1)
  · refine ⟨hpos, fun b hb => hfails b ?_, rest, hrest, by simpa using hlen⟩
    rw [hfails'] at hb
    cases hs : s.fails with
    | nil => simp [hs] at hb
    | cons c fails =>
      rw [hs, List.tail_cons] at hb
      simp [hb]

/-! ## Counting allocations -/

/-- The operation from `s` to `t` is done if and only if the next `n`
allocations succeed, and it has then taken `n` pages. -/
structure Exactly (n : Nat) (done : Prop) (s t : Ram) : Prop where
  done_iff : done ↔ s.Supplies n
  rest : done → ∀ m, t.Supplies m ↔ s.Supplies (m + n)

namespace Exactly

variable {n n' : Nat} {done done' : Prop} {s t u : Ram}

theorem next (h : Exactly n done s t) (hdone : done) (h' : Exactly n' done' t u) :
    Exactly (n + n') done' s u where
  done_iff := by
    rw [h'.done_iff, h.rest hdone, Nat.add_comm]
  rest hd m := by
    rw [h'.rest hd, h.rest hdone, Nat.add_assoc, Nat.add_comm n']

theorem of_short (hshort : ¬s.Supplies n) (hn : n ≤ n') (hnot : ¬done) : Exactly n' done s t where
  done_iff := ⟨fun hd => (hnot hd).elim, fun hs => (hshort (hs.mono hn)).elim⟩
  rest hd := (hnot hd).elim

theorem congr (h : Exactly n done s t) (hiff : done' ↔ done) : Exactly n done' s t where
  done_iff := hiff.trans h.done_iff
  rest hd := h.rest (hiff.mp hd)

end Exactly

/-- A page is on the allocator's list. -/
def Ram.OnFreeList (s : Ram) (p : Nat) : Prop := ∃ l, Threaded s.mem s.freelist l ∧ p ∈ l

end Kernel
end FastIpc
