import FastIpc.Foundation.Run
import FastIpc.Kernel.Kalloc
import Mathlib.Data.List.Perm.Basic

/-!
# The page allocator from its start

`kinit` frees every whole page between the kernel's end and the end of memory.  From then
on clients allocate pages, write to the pages they have and free them again.

Main results:

- Theorem `exists_kinit`: `kinit` returns with all whole pages on the list.
- Theorem `page_allocator_sound`: every whole page is allocated or on the list, once.
-/

namespace FastIpc
namespace Kernel

open Foundation

/-! ## Filling the list -/

/-- The loop of `freerange` from the page at `p` on, for at most `fuel` pages. -/
def freerangeLoop (im : Image) (paEnd : Nat) : Nat → Nat → RamM Unit
  | 0, _ => return ()
  | fuel + 1, p =>
    if p + pgSize ≤ paEnd then do
      kfree im p
      freerangeLoop im paEnd fuel (p + pgSize)
    else
      return ()

/-- Free the whole pages of a range. -/
def freerange (im : Image) (paStart paEnd : Nat) : RamM Unit :=
  let p := pgRoundUp paStart
  freerangeLoop im paEnd ((paEnd - p) / pgSize + 1) p

/-- Free all memory after the kernel. -/
def kinit (im : Image) : RamM Unit := freerange im im.endAddr phyStop

/-- A whole page of the memory after the kernel. -/
def WholePage (im : Image) (p : Nat) : Prop :=
  p % pgSize = 0 ∧ pgRoundUp im.endAddr ≤ p ∧ p + pgSize ≤ phyStop

/-- The end of memory is a page boundary, so the pages that `kfree` accepts are whole. -/
theorem wholePage_iff {im : Image} {p : Nat} : WholePage im p ↔ IsPage im p := by
  have hstop : phyStop % pgSize = 0 := by decide
  constructor
  · rintro ⟨haligned, hlo, hhi⟩
    refine ⟨haligned, ?_, ?_⟩
    · unfold pgRoundUp pgSize at hlo
      omega
    · unfold pgSize at hhi
      omega
  · intro h
    have haligned := h.aligned
    have hlo := h.endAddr_le
    have hhi := h.lt_phyStop
    refine ⟨haligned, ?_, ?_⟩
    · unfold pgRoundUp
      unfold pgSize at *
      omega
    · unfold pgSize at *
      omega

/-- A list of pages that memory threads, without repetitions. -/
structure FreeList (s : Ram) (l : List Nat) : Prop where
  threaded : Threaded s.mem s.freelist l
  nodup : l.Nodup
  aligned : ∀ p ∈ l, p % pgSize = 0
  lt_phyStop : ∀ p ∈ l, p < phyStop

namespace FreeList

variable {im : Image} {s t : Ram} {l : List Nat} {p : Nat}

/-- The head fits in the word that `kfree` stores it in. -/
theorem head_lt (h : FreeList s l) : s.freelist < 256 ^ 8 := by
  cases l with
  | nil =>
    have hzero : s.freelist = 0 := h.threaded
    omega
  | cons p l =>
    have hp := h.lt_phyStop p (by simp)
    have hhead : s.freelist = p := h.threaded.1
    unfold phyStop at hp
    omega

theorem kfree (h : FreeList s l) (hp : IsPage im p) (hfresh : p ∉ l) :
    ∃ t, Kernel.kfree im p s = .ok ((), t) ∧ FreeList t (p :: l) ∧ t.fails = s.fails := by
  obtain ⟨t, hrun, hthreaded, hfails, -⟩ := h.threaded.kfree hp hfresh h.aligned h.head_lt
  refine ⟨t, hrun, ⟨hthreaded, List.nodup_cons.mpr ⟨hfresh, h.nodup⟩, ?_, ?_⟩, hfails⟩
  · intro q hq
    rcases List.mem_cons.mp hq with rfl | hq
    · exact hp.aligned
    · exact h.aligned q hq
  · intro q hq
    rcases List.mem_cons.mp hq with rfl | hq
    · exact hp.lt_phyStop
    · exact h.lt_phyStop q hq

/-- An allocation that nothing makes fail takes the first page of the list. -/
theorem kalloc (h : FreeList s l) (hfails : s.fails = []) :
    ∃ t, Kernel.kalloc s = .ok (l.headD 0, t) ∧ FreeList t l.tail ∧ t.fails = [] ∧
      (l.headD 0 = 0 ↔ l = []) := by
  obtain ⟨p, t, hrun⟩ := exists_kalloc s
  have hfails' : t.fails = [] := by
    unfold Kernel.kalloc at hrun
    split at hrun
    next => cases hrun; simp [hfails]
    next => cases hrun; simp [hfails]
  rcases h.threaded.kalloc h.nodup h.aligned hrun with ⟨rfl, ht⟩ | ⟨rest, rfl, hpos, -, hrest⟩
  · have hempty : l = [] := by
      cases l with
      | nil => rfl
      | cons q l =>
        have hne : ¬(s.fails.head? = some true ∨ s.freelist = 0) := by
          have hhead : s.freelist = q := h.threaded.1
          have hq : q ≠ 0 := h.threaded.2.1
          simp [hfails, hhead, hq]
        unfold Kernel.kalloc at hrun
        rw [if_neg hne] at hrun
        simp only [Except.ok.injEq, Prod.mk.injEq] at hrun
        exact (hne (.inr hrun.1)).elim
    subst hempty
    refine ⟨t, hrun, ⟨?_, List.nodup_nil, by simp, by simp⟩, hfails', by simp⟩
    rw [ht]
    exact h.threaded
  · refine ⟨t, hrun, ⟨hrest, (List.nodup_cons.mp h.nodup).2, ?_, ?_⟩, hfails', by simpa using hpos⟩
    · exact fun q hq => h.aligned q (by simpa using .inr hq)
    · exact fun q hq => h.lt_phyStop q (by simpa using .inr hq)

/-- A write outside the free pages leaves the list alone. -/
theorem store (h : FreeList s l) {x : Nat} (hout : ∀ p ∈ l, ¬(p ≤ x ∧ x < p + pgSize))
    (v : BitVec 8) : FreeList { s with mem := Function.update s.mem x v } l where
  threaded := by
    refine h.threaded.congr fun p hp => Memory.readLE_congr fun y hlo hhi => ?_
    refine Function.update_of_ne (fun heq => hout p hp ?_) _ _
    unfold pgSize
    omega
  __ := h

/-- The loop of `freerange` adds exactly the whole pages that are left. -/
theorem freerangeLoop {paEnd fuel : Nat} (h : FreeList s l) (hend : paEnd ≤ phyStop)
    (hfuel : paEnd < p + fuel * pgSize + pgSize) (hp : p % pgSize = 0) (hlo : im.endAddr ≤ p)
    (hbelow : ∀ q ∈ l, q < p) :
    ∃ t l', Kernel.freerangeLoop im paEnd fuel p s = .ok ((), t) ∧ FreeList t l' ∧
      t.fails = s.fails ∧ ∀ q, q ∈ l' ↔ q ∈ l ∨ (q % pgSize = 0 ∧ p ≤ q ∧ q + pgSize ≤ paEnd) := by
  induction fuel generalizing s l p with
  | zero =>
    refine ⟨s, l, rfl, h, rfl, fun q => ⟨.inl, ?_⟩⟩
    rintro (hq | ⟨-, hpq, hq⟩)
    · exact hq
    · omega
  | succ fuel ih =>
    by_cases hroom : p + pgSize ≤ paEnd
    · have hpage : IsPage im p := ⟨hp, hlo, by unfold pgSize at hroom; omega⟩
      obtain ⟨u, hfree, hu, hfails⟩ := h.kfree hpage fun hmem => (hbelow p hmem).false
      have hnext : ∀ q ∈ p :: l, q < p + pgSize := by
        intro q hq
        unfold pgSize
        rcases List.mem_cons.mp hq with rfl | hq
        · omega
        · have := hbelow q hq
          omega
      obtain ⟨t, l', hrun, ht, hfails', hmem⟩ :=
        ih hu (by rw [Nat.succ_mul] at hfuel; omega) (by rw [Nat.add_mod_right, hp])
          (by omega) hnext
      refine ⟨t, l', ?_, ht, hfails'.trans hfails, fun q => ?_⟩
      · rw [Kernel.freerangeLoop, if_pos hroom]
        exact (FaultM.bind_of_ok hfree).trans hrun
      · rw [hmem, List.mem_cons]
        unfold pgSize at *
        constructor
        · rintro ((rfl | hq) | hq)
          · exact .inr ⟨hp, le_rfl, hroom⟩
          · exact .inl hq
          · exact .inr ⟨hq.1, by omega, hq.2.2⟩
        · rintro (hq | hq)
          · exact .inl (.inr hq)
          · by_cases heq : q = p
            · exact .inl (.inl heq)
            · exact .inr ⟨hq.1, by omega, hq.2.2⟩
    · refine ⟨s, l, ?_, h, rfl, fun q => ⟨.inl, ?_⟩⟩
      · rw [Kernel.freerangeLoop, if_neg hroom]
        rfl
      · rintro (hq | ⟨-, hpq, hq⟩)
        · exact hq
        · omega

end FreeList

/-- `kinit` returns, and the list has then exactly the whole pages after the kernel. -/
theorem exists_kinit (im : Image) (m : Memory) :
    ∃ s l, kinit im ⟨m, 0, []⟩ = .ok ((), s) ∧ FreeList s l ∧ s.fails = [] ∧
      ∀ p, p ∈ l ↔ WholePage im p := by
  have hstart : FreeList ⟨m, 0, []⟩ [] := ⟨rfl, List.nodup_nil, by simp, by simp⟩
  have hfuel : phyStop < pgRoundUp im.endAddr
      + ((phyStop - pgRoundUp im.endAddr) / pgSize + 1) * pgSize + pgSize := by
    unfold pgSize
    omega
  have haligned : pgRoundUp im.endAddr % pgSize = 0 := Nat.mul_mod_left _ _
  have hlo : im.endAddr ≤ pgRoundUp im.endAddr := by
    unfold pgRoundUp pgSize
    omega
  obtain ⟨s, l, hrun, hs, hfails, hmem⟩ := hstart.freerangeLoop le_rfl hfuel haligned hlo (by simp)
  exact ⟨s, l, hrun, hs, hfails, fun p => by simpa [WholePage] using hmem p⟩

/-! ## Clients -/

/-- Memory with its allocator, and the pages that clients have. -/
structure PageSys where
  ram : Ram
  allocated : List Nat

/-- What clients do. -/
inductive PageAction where
  | kalloc
  | kfree (p : Nat)
  | store (x : Nat) (v : BitVec 8)

/-- One call or one write; `none` if the kernel panics. -/
def pageStep (im : Image) (s : PageSys) : PageAction → Option PageSys
  | .kalloc =>
    match kalloc s.ram with
    | .ok (p, r) => some ⟨r, if p = 0 then s.allocated else p :: s.allocated⟩
    | .error _ => none
  | .kfree p =>
    match kfree im p s.ram with
    | .ok (_, r) => some ⟨r, s.allocated.erase p⟩
    | .error _ => none
  | .store x v => some ⟨{ s.ram with mem := Function.update s.ram.mem x v }, s.allocated⟩

/-- Clients free only pages that they have, and write only to those. -/
def OwnPages (s : PageSys) : PageAction → Prop
  | .kalloc => True
  | .kfree p => p ∈ s.allocated
  | .store x _ => ∃ p ∈ s.allocated, p ≤ x ∧ x < p + pgSize

instance (s : PageSys) : (a : PageAction) → Decidable (OwnPages s a)
  | .kalloc => inferInstanceAs (Decidable True)
  | .kfree p => inferInstanceAs (Decidable (p ∈ s.allocated))
  | .store x _ => inferInstanceAs (Decidable (∃ p ∈ s.allocated, p ≤ x ∧ x < p + pgSize))

/-- The free pages `l` and the allocated pages are all the whole pages, each once. -/
structure Partition (im : Image) (s : PageSys) (l : List Nat) : Prop where
  threaded : Threaded s.ram.mem s.ram.freelist l
  nodup : (l ++ s.allocated).Nodup
  pages : ∀ p, p ∈ l ++ s.allocated ↔ WholePage im p

/-- The pages are parted in free and allocated ones, and allocations fail only for lack of pages. -/
def Parted (im : Image) (s : PageSys) : Prop := s.ram.fails = [] ∧ ∃ l, Partition im s l

namespace Partition

variable {im : Image} {s t : PageSys} {l : List Nat} {p : Nat}

variable (h : Partition im s l)
include h

theorem isPage (hp : p ∈ l ++ s.allocated) : IsPage im p :=
  wholePage_iff.mp ((h.pages p).mp hp)

theorem freeList : FreeList s.ram l where
  threaded := h.threaded
  nodup := (List.nodup_append.mp h.nodup).1
  aligned _ hp := (h.isPage (List.mem_append_left _ hp)).aligned
  lt_phyStop _ hp := (h.isPage (List.mem_append_left _ hp)).lt_phyStop

theorem of_perm {l' : List Nat} (hthreaded : Threaded t.ram.mem t.ram.freelist l')
    (hperm : (l' ++ t.allocated).Perm (l ++ s.allocated)) : Partition im t l' where
  threaded := hthreaded
  nodup := hperm.nodup_iff.mpr h.nodup
  pages p := hperm.mem_iff.trans (h.pages p)

/-- What an allocation returns: a page that was free, or nothing when all are allocated. -/
theorem kalloc (hfails : s.ram.fails = []) :
    ∃ p r, Kernel.kalloc s.ram = .ok (p, r) ∧ (p = 0 ↔ ∀ q, WholePage im q → q ∈ s.allocated) ∧
      (p ≠ 0 → WholePage im p ∧ p ∉ s.allocated) ∧
      Parted im ⟨r, if p = 0 then s.allocated else p :: s.allocated⟩ := by
  obtain ⟨r, hrun, hr, hfails', hzero⟩ := h.freeList.kalloc hfails
  refine ⟨l.headD 0, r, hrun, ?_, ?_, hfails', l.tail, ?_⟩
  · rw [hzero]
    constructor
    · rintro rfl q hq
      exact (h.pages q).mpr hq
    · intro hall
      refine List.eq_nil_iff_forall_not_mem.mpr fun q hq => ?_
      have hq' := hall q ((h.pages q).mp (List.mem_append_left _ hq))
      exact (List.nodup_append.mp h.nodup).2.2 q hq q hq' rfl
  · intro hne
    cases l with
    | nil => exact (hne rfl).elim
    | cons q l =>
      refine ⟨(h.pages q).mp (by simp), fun hmem => ?_⟩
      exact (List.nodup_append.mp h.nodup).2.2 q (by simp) q hmem rfl
  · refine h.of_perm hr.threaded ?_
    cases l with
    | nil => exact List.Perm.refl _
    | cons q l =>
      have hq : q ≠ 0 := fun heq => by simpa using hzero.mp heq
      show (l ++ if q = 0 then s.allocated else q :: s.allocated).Perm (q :: l ++ s.allocated)
      rw [if_neg hq]
      exact List.perm_middle

theorem kfree (hfails : s.ram.fails = []) (hp : p ∈ s.allocated) :
    ∃ r, Kernel.kfree im p s.ram = .ok ((), r) ∧ Parted im ⟨r, s.allocated.erase p⟩ := by
  have hfresh : p ∉ l := fun hmem => (List.nodup_append.mp h.nodup).2.2 p hmem p hp rfl
  obtain ⟨r, hrun, hr, hfails'⟩ := h.freeList.kfree (h.isPage (List.mem_append_right _ hp)) hfresh
  refine ⟨r, hrun, hfails'.trans hfails, p :: l, h.of_perm hr.threaded ?_⟩
  have hcons : (l ++ s.allocated).Perm (l ++ p :: s.allocated.erase p) :=
    (List.perm_cons_erase hp).append_left l
  exact (hcons.trans List.perm_middle).symm

/-- A write to an allocated page changes nothing for the allocator. -/
theorem store {x : Nat} (hp : p ∈ s.allocated) (hlo : p ≤ x) (hhi : x < p + pgSize) (v : BitVec 8) :
    Partition im ⟨{ s.ram with mem := Function.update s.ram.mem x v }, s.allocated⟩ l := by
  refine h.of_perm (h.freeList.store (fun q hq hx => ?_) v).threaded (List.Perm.refl _)
  have heq : q = p :=
    IsPage.eq_of_mem (h.freeList.aligned q hq) (h.isPage (List.mem_append_right _ hp)).aligned
      hx.1 hx.2 hlo hhi
  exact (List.nodup_append.mp h.nodup).2.2 q hq p hp heq

end Partition

theorem Parted.step {im : Image} {s t : PageSys} {a : PageAction} (h : Parted im s)
    (hok : OwnPages s a) (hstep : pageStep im s a = some t) : Parted im t := by
  obtain ⟨hfails, l, hl⟩ := h
  cases a with
  | kalloc =>
    obtain ⟨p, r, hrun, -, -, hparted⟩ := hl.kalloc hfails
    simp only [pageStep, hrun, Option.some.injEq] at hstep
    exact hstep ▸ hparted
  | kfree p =>
    obtain ⟨r, hrun, hparted⟩ := hl.kfree hfails hok
    simp only [pageStep, hrun, Option.some.injEq] at hstep
    exact hstep ▸ hparted
  | store x v =>
    obtain ⟨p, hp, hlo, hhi⟩ := hok
    simp only [pageStep, Option.some.injEq] at hstep
    exact hstep ▸ ⟨hfails, l, hl.store hp hlo hhi v⟩

/-- The memory that `kinit` leaves, with every page free. -/
theorem Parted.of_kinit {im : Image} {m : Memory} {r : Ram}
    (h : kinit im ⟨m, 0, []⟩ = .ok ((), r)) : Parted im ⟨r, []⟩ := by
  obtain ⟨s, l, hrun, hs, hfails, hmem⟩ := exists_kinit im m
  cases hrun.symm.trans h
  refine ⟨hfails, l, hs.threaded, ?_, ?_⟩
  · simpa using hs.nodup
  · simpa using hmem

/-- After `kinit`, which returns, whatever clients do with the pages they have: the list is a
finite one without repetitions, its pages and the allocated pages are exactly the whole pages after
the kernel, none in both; `kalloc` returns such a page that nobody has, or `0` exactly
when all are allocated; and `kfree` of a page that a client has returns. -/
theorem page_allocator_sound (im : Image) (m : Memory) :
    ∃ r0, kinit im ⟨m, 0, []⟩ = .ok ((), r0) ∧ ∀ {calls : List PageAction} {s : PageSys},
        Run (Guarded OwnPages (StepOf (pageStep im))) ⟨r0, []⟩ calls s →
        (∃ l, Threaded s.ram.mem s.ram.freelist l ∧ l.Nodup ∧ s.allocated.Nodup ∧
          (∀ p ∈ l, p ∉ s.allocated) ∧ ∀ p, WholePage im p ↔ p ∈ l ∨ p ∈ s.allocated) ∧
        (∃ p r, kalloc s.ram = .ok (p, r) ∧ (p = 0 ↔ ∀ q, WholePage im q → q ∈ s.allocated) ∧
          (p ≠ 0 → WholePage im p ∧ p ∉ s.allocated)) ∧
        ∀ p ∈ s.allocated, ∃ r, kfree im p s.ram = .ok ((), r) := by
  obtain ⟨r0, -, hinit, -⟩ := exists_kinit im m
  refine ⟨r0, hinit, fun {calls s} hrun => ?_⟩
  have hparted : Parted im s :=
    hrun.invariant_guarded (fun h hok hstep => h.step hok hstep) (Parted.of_kinit hinit)
  obtain ⟨hfails, l, hl⟩ := hparted
  obtain ⟨hl1, hl2, hdisj⟩ := List.nodup_append.mp hl.nodup
  refine ⟨⟨l, hl.threaded, hl1, hl2, ?_, ?_⟩, ?_, ?_⟩
  · exact fun p hp hp' => hdisj p hp p hp' rfl
  · exact fun p => (hl.pages p).symm.trans List.mem_append
  · obtain ⟨p, r, hcall, hzero, hpage, -⟩ := hl.kalloc hfails
    exact ⟨p, r, hcall, hzero, hpage⟩
  · intro p hp
    obtain ⟨r, hcall, -⟩ := hl.kfree hfails hp
    exact ⟨r, hcall⟩

/-- A kernel that ends one byte into the third page before the end of memory. -/
def lastPages : Image where
  endAddr := phyStop - 3 * pgSize + 1
  trampoline := phyStop - 8 * pgSize
  trampoline_aligned := by decide
  trampoline_pos := by decide
  trampoline_lt := by decide
  endAddr_le := by decide

/-- Two whole pages: both are allocated, the third allocation fails, and the page that is freed
after a write to its first word is the one that a further allocation returns. -/
theorem page_allocator_sound_two :
    ∃ r0 s, kinit lastPages ⟨fun _ => 0, 0, []⟩ = .ok ((), r0) ∧
      Run (Guarded OwnPages (StepOf (pageStep lastPages))) ⟨r0, []⟩
        [.kalloc, .kalloc, .kalloc, .store (phyStop - pgSize) 7, .kfree (phyStop - pgSize),
          .kalloc] s ∧
      s.allocated = [phyStop - pgSize, phyStop - 2 * pgSize] ∧
      (∀ q, WholePage lastPages q → q ∈ s.allocated) := by
  obtain ⟨r0, hinit, hsound⟩ := page_allocator_sound lastPages fun _ => 0
  have hcheck : (match kinit lastPages ⟨fun _ => 0, 0, []⟩ with
      | .ok (_, r) =>
        (exec (guardStep OwnPages (pageStep lastPages)) ⟨r, []⟩
          [.kalloc, .kalloc, .kalloc, .store (phyStop - pgSize) 7, .kfree (phyStop - pgSize),
            .kalloc]).any fun t =>
          decide (t.allocated = [phyStop - pgSize, phyStop - 2 * pgSize] ∧ t.ram.freelist = 0)
      | .error _ => false) = true := by
    decide +kernel
  rw [hinit] at hcheck
  obtain ⟨s, hexec, hallocated, hfreelist⟩ := exists_exec hcheck
  have hrun := run_guarded_of_exec hexec
  obtain ⟨-, ⟨p, r, hcall, hzero, -⟩, -⟩ := hsound hrun
  refine ⟨r0, s, hinit, hrun, hallocated, hzero.mp ?_⟩
  rw [kalloc, if_pos (.inr hfreelist)] at hcall
  cases hcall
  rfl

end Kernel
end FastIpc
