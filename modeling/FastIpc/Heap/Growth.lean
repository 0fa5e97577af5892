import FastIpc.Foundation.SignedWord
import FastIpc.Heap.Umalloc
import FastIpc.Kernel.Machine

/-!
# Growth of the user heap

The allocator asks the kernel for memory.  `morecore` computes the number of bytes as a 64-bit
product, `sbrk` takes an `int`, and `growproc` computes the new size as a `uint`.
A request of `2 ^ 31` bytes or more becomes a negative or a small number, with which
`sbrk` succeeds.

Main results:

- Theorem `kernelSbrk_spec`: what `sbrk` returns, and the size it leaves.
- Theorem `growth_sound_iff`: when the blocks of `malloc` were obtained from the kernel.
- Theorem `morecore_ungrown`: a request of `2 ^ 31` bytes gets a block that is not there.
-/

namespace FastIpc
namespace Heap

open Foundation Kernel

/-! ## The system call -/

/-- The system call `sbrk`; the old size is returned through an `int`. -/
def kernelSbrk (im : Image) (p : ProcId) (n : Int) (k : KernelState) :
    Option (Int × KernelState) :=
  match Kernel.sbrk im p n k with
  | .ok (addr, k') => some ((BitVec.ofInt 32 addr).toInt, k')
  | .error _ => none

/-- The argument of `sbrk` in `morecore`. -/
def sbrkArg (nu : Nat) : Int := (BitVec.ofNat 32 (nu * headerSize)).toInt

/-- A call of `sbrk` with what it returned. -/
structure SbrkCall where
  before : KernelState
  result : Int
  after : KernelState

/-- `sbrk` with a record of its calls. -/
def recorded (im : Image) (p : ProcId) (n : Int) (e : KernelState × List SbrkCall) :
    Option (Int × KernelState × List SbrkCall) :=
  (kernelSbrk im p n e.1).map fun (a, k') => (a, k', e.2 ++ [⟨e.1, a, k'⟩])

/-- The process has grown by `nu` headers at the address returned. -/
def Grew (p : ProcId) (nu : Nat) (c : SbrkCall) : Prop :=
  c.result = (c.before.proc p).sz ∧ (c.before.proc p).sz + headerSize * nu ≤ (c.after.proc p).sz

/-- In every heap, the blocks that `malloc` puts into the free list were obtained from the
kernel, or else `malloc` returns 0. -/
def GrowthSound (im : Image) (p : ProcId) (base nbytes : Nat) (k : KernelState) : Prop :=
  ∀ fuel h res h' k' calls,
    malloc (recorded im p) base fuel nbytes h (k, []) = some (res, h', k', calls) →
    ∀ c ∈ calls, c.result ≠ -1 ∧ Grew p (atLeast (unitsFor nbytes)) c ∨ c.result = -1 ∧ res = 0

/-- The start of physical memory. -/
def kernBase : Nat := 0x80000000

/-- There is no memory for one more header. -/
def NoRoom (p : ProcId) (k : KernelState) : Prop :=
  userPages (k.proc p).sz < userPages ((k.proc p).sz + headerSize) ∧ ¬k.ram.Supplies
      (1 + missing k.ram.mem (k.proc p).pagetable (userPages (k.proc p).sz * pgSize))

section Kernel

variable {im : Image} {own : Nat → Role} {holds : List Holding} {k : KernelState} {p : ProcId}

section

variable (h : KernelInv im own holds k) (hp : (k.proc p).pagetable ≠ 0)
  (hkern : kernBase ≤ im.endAddr)
include h hp hkern

theorem size_le : (k.proc p).sz ≤ 2 ^ 27 := by
  have hpages := (h.spaces.space p hp).userMap.pages_le_sub h.spaces.owned
  have hend := Nat.div_le_div_right hkern (c := pgSize)
  have hsize : (k.proc p).sz ≤ userPages (k.proc p).sz * pgSize := by
    rw [← pgRoundUp_eq]
    unfold pgRoundUp pgSize
    omega
  have hstop : phyStop / pgSize = 0x88000 := by decide
  have hbase : kernBase / pgSize = 0x80000 := by decide
  rw [hstop] at hpages
  rw [hbase] at hend
  have hle := Nat.mul_le_mul_right pgSize (show userPages (k.proc p).sz ≤ 0x8000 by omega)
  unfold pgSize at *
  omega

/-- What `sbrk` returns, and the size it leaves. -/
theorem kernelSbrk_spec (n : Int) :
    ∃ k' own', KernelInv im own' holds k' ∧ (k'.proc p).pagetable ≠ 0 ∧
      ((0 < n ∧ GrowthFails im p n k) ∧ kernelSbrk im p n k = some (-1, k') ∨
        ¬(0 < n ∧ GrowthFails im p n k) ∧ kernelSbrk im p n k = some (((k.proc p).sz : Int), k') ∧
        (k'.proc p).sz = if 0 < n then max (k.proc p).sz (newSize k p n)
          else min (k.proc p).sz (newSize k p n)) := by
  obtain ⟨res, k', own', hrun, hinv, -, -, -, hprocs, hsize⟩ := h.sbrk hp n
  have hle := size_le h hp hkern
  have hp' : (k'.proc p).pagetable ≠ 0 := by
    rw [hprocs p]
    exact hp
  have hint : (BitVec.ofInt 32 ((k.proc p).sz : Int)).toInt = (k.proc p).sz := by
    rw [BitVec.ofInt_natCast]
    exact toInt_ofNat_of_lt (by omega)
  refine ⟨k', own', hinv, hp', ?_⟩
  rw [kernelSbrk, hrun]
  by_cases hn : 0 < n
  · rcases hsize.grow hn with ⟨hfails, rfl⟩ | ⟨hfails, rfl, hsz⟩
    · exact .inl ⟨⟨hn, hfails⟩, rfl⟩
    · refine .inr ⟨fun hboth => hfails hboth.2, ?_, by rw [if_pos hn, hsz]⟩
      simp only [lt_irrefl, if_false, hint]
  · obtain ⟨rfl, hsz⟩ := hsize.shrink (Int.not_lt.mp hn)
    refine .inr ⟨fun hboth => hn hboth.1, ?_, by rw [if_neg hn, hsz]⟩
    simp only [lt_irrefl, if_false, hint]

end

theorem sbrkArg_of_lt {nu : Nat} (h : headerSize * nu < 2 ^ 31) :
    sbrkArg nu = (headerSize * nu : Nat) := by
  rw [sbrkArg, Nat.mul_comm]
  exact toInt_ofNat_of_lt h

/-- From `2 ^ 31` bytes on the argument is negative, and then 0. -/
theorem sbrkArg_nonpos {nu : Nat} (hlow : 2 ^ 31 ≤ headerSize * nu) (hhigh : nu ≤ 2 ^ 28) :
    sbrkArg nu ≤ 0 := by
  unfold sbrkArg headerSize at *
  rw [BitVec.toInt_eq_toNat_cond, BitVec.toNat_ofNat]
  split
  next hlt => omega
  next => omega

variable (h : KernelInv im own holds k) (hp : (k.proc p).pagetable ≠ 0)
  (hkern : kernBase ≤ im.endAddr)
include h hp hkern

theorem grew_of_lt {nu : Nat} (hpos : 0 < nu) (hlt : headerSize * nu < 2 ^ 31) :
    ∃ a k' own', kernelSbrk im p (sbrkArg nu) k = some (a, k') ∧ KernelInv im own' holds k' ∧
      (k'.proc p).pagetable ≠ 0 ∧ (a = -1 ∨ a ≠ -1 ∧ Grew p nu ⟨k, a, k'⟩) := by
  have hle := size_le h hp hkern
  obtain ⟨k', own', hinv, hp', ⟨-, hrun⟩ | ⟨-, hrun, hsz⟩⟩ :=
    kernelSbrk_spec h hp hkern (sbrkArg nu)
  · exact ⟨-1, k', own', hrun, hinv, hp', .inl rfl⟩
  · refine ⟨_, k', own', hrun, hinv, hp', .inr ⟨?_, rfl, ?_⟩⟩
    · show ((k.proc p).sz : Int) ≠ -1
      omega
    rw [sbrkArg_of_lt hlt] at hsz
    have hn : (0 : Int) < (headerSize * nu : Nat) := by
      unfold headerSize
      omega
    rw [if_pos hn, newSize] at hsz
    simp only
    omega

theorem growthFails_iff : GrowthFails im p headerSize k ↔ NoRoom p k := by
  have hle := size_le h hp hkern
  have hnew : newSize k p headerSize = (k.proc p).sz + headerSize := by
    unfold newSize headerSize
    omega
  rw [GrowthFails, hnew]
  refine (h.spaces.space p hp).userMap.uvmalloc_eq_zero_iff h.spaces.owned (Spaces.isRoot hp)
    (Nat.zero_le _) le_rfl (Nat.lt_add_of_pos_right (by decide)) ?_
  unfold userPages pgRoundUp pgSize headerSize
  omega

end Kernel

/-! ## The allocator -/

theorem unitsFor_le {nbytes : Nat} (h : nbytes < 2 ^ 32) : unitsFor nbytes ≤ 2 ^ 28 + 1 := by
  unfold unitsFor headerSize
  omega

theorem atLeast_cases (nu : Nat) : atLeast nu = nu ∨ atLeast nu = 4096 := by
  unfold atLeast
  split
  next => exact .inr rfl
  next => exact .inl rfl

section Malloc

variable {im : Image} {p : ProcId} {base nbytes : Nat} {k : KernelState}

/-- If every call of `sbrk` is served or fails, so are those of the loop of `malloc`, and
the loop returns 0 after one that fails. -/
theorem mallocLoop_recorded {I : KernelState → Prop} {nunits : Nat}
    (hcall : ∀ k a k', I k → kernelSbrk im p (sbrkArg (atLeast nunits)) k = some (a, k') →
      a = -1 ∨ a ≠ -1 ∧ Grew p (atLeast nunits) ⟨k, a, k'⟩ ∧ I k')
    {fuel prev q : Nat} {h h' : Heap} {k' : KernelState} {calls calls' : List SbrkCall} {res : Nat}
    (hI : I k) (hcalls : ∀ c ∈ calls, c.result ≠ -1 ∧ Grew p (atLeast nunits) c)
    (hrun : mallocLoop (recorded im p) nunits fuel prev q h (k, calls) =
      some (res, h', k', calls')) :
    ∀ c ∈ calls', c.result ≠ -1 ∧ Grew p (atLeast nunits) c ∨ c.result = -1 ∧ res = 0 := by
  induction fuel generalizing prev q h k calls with
  | zero => cases hrun
  | succ fuel ih =>
    rw [mallocLoop] at hrun
    split at hrun
    next =>
      cases hrun
      exact fun c hc => .inl (hcalls c hc)
    next =>
      split at hrun
      next =>
        -- The list has been searched, and `morecore` is called.
        split at hrun
        next => cases hrun
        next q' h1 e hmore =>
          obtain ⟨a, e', hsbrk, hcases⟩ := morecore_eq_some.mp hmore
          obtain ⟨⟨a', k1⟩, hkernel, heq⟩ := Option.map_eq_some_iff.mp hsbrk
          cases heq
          rcases hcases with ⟨rfl, hres⟩ | ⟨ha, h2, -, hres⟩
          · cases hres
            rw [if_pos rfl] at hrun
            cases hrun
            intro c hc
            rcases List.mem_append.mp hc with hc | hc
            · exact .inl (hcalls c hc)
            · rw [List.mem_singleton.mp hc]
              exact .inr ⟨rfl, rfl⟩
          · cases hres
            obtain ⟨-, hgrew, hI'⟩ := (hcall k a k1 hI hkernel).resolve_left ha
            have hcalls' : ∀ c ∈ calls ++ [⟨k, a, k1⟩],
                c.result ≠ -1 ∧ Grew p (atLeast nunits) c := by
              intro c hc
              rcases List.mem_append.mp hc with hc | hc
              · exact hcalls c hc
              · rw [List.mem_singleton.mp hc]
                exact ⟨ha, hgrew⟩
            split at hrun
            next =>
              cases hrun
              exact fun c hc => .inl (hcalls' c hc)
            next => exact ih hI' hcalls' hrun
      next => exact ih hI hcalls hrun

/-- The first `malloc` of a program: whatever `sbrk` has done, the block it is said to have
obtained is used. -/
theorem malloc_first {E : Type} {sbrk : Int → E → Option (Int × E)} {a : Nat} {m : Memory} {e e' : E}
    (hbase : 0 < base) (habove : base + headerSize ≤ a) (ha : a < 2 ^ 64)
    (hunits : atLeast (unitsFor nbytes) < 2 ^ 32)
    (hsbrk : sbrk (sbrkArg (atLeast (unitsFor nbytes))) e = some ((a : Int), e')) :
    ∃ res h', malloc sbrk base 3 nbytes ⟨m, 0⟩ e = some (res, h', e') := by
  have happart : Apart base a := .inl habove
  have hlt : base < a := by
    unfold headerSize at habove
    omega
  have hbase64 : base < 2 ^ 64 := by omega
  -- The list with the static header only.
  have hsize : size (setSize (setPtr m base base) base 0) base = 0 := size_setSize_self (by decide)
  have hptr : ptr (setSize (setPtr m base base) base 0) base = base := by
    rw [ptr_setSize (.inl rfl), ptr_setPtr_self hbase64]
  rw [malloc, initHeap, if_pos rfl]
  generalize setSize (setPtr m base base) base 0 = m0 at hsize hptr
  have hsmall : ¬size m0 base ≥ unitsFor nbytes := by
    rw [hsize]
    exact Nat.not_le.mpr (unitsFor_pos nbytes)
  -- The header of the block is written, and it is linked behind the static header.
  have hsize1 : size (setSize m0 a (atLeast (unitsFor nbytes))) a = atLeast (unitsFor nbytes) :=
    size_setSize_self hunits
  have hbase1 : size (setSize m0 a (atLeast (unitsFor nbytes))) base = 0 := by
    rw [size_setSize_of_apart happart.symm, hsize]
  have hptr1 : ptr (setSize m0 a (atLeast (unitsFor nbytes))) base = base := by
    rw [ptr_setSize (.inr happart.symm), hptr]
  have hmore : morecore sbrk 2 (unitsFor nbytes) ⟨m0, base⟩ e = some (base,
      ⟨setPtr (setPtr (setSize m0 a (atLeast (unitsFor nbytes))) a base) base a, base⟩, e') := by
    have haddr : ((a : Int) % 2 ^ 64).toNat = a := by omega
    refine morecore_eq_some.mpr ⟨a, e', hsbrk, .inr ⟨by omega,
      ⟨setPtr (setPtr (setSize m0 a (atLeast (unitsFor nbytes))) a base) base a, base⟩, ?_, rfl⟩⟩
    rw [haddr]
    refine free_eq_some.mpr ⟨base, ?_, ?_⟩
    · rw [Nat.add_sub_cancel]
      exact findPlace_of_stops (.inr ⟨by rw [hptr1], .inl hlt⟩) 1
    · rw [Nat.add_sub_cancel]
      generalize setSize m0 a (atLeast (unitsFor nbytes)) = m1 at hsize1 hbase1 hptr1
      have hnext : joinNext m1 base a = setPtr m1 a base := by
        rw [joinNext, hptr1, if_neg]
        have := Nat.le_add_right a (headerSize * size m1 a)
        omega
      have hprev : joinPrev (setPtr m1 a base) base a = setPtr (setPtr m1 a base) base a := by
        rw [joinPrev, size_setPtr (.inr happart.symm), hbase1, if_neg]
        omega
      rw [hnext, hprev]
  generalize setSize m0 a (atLeast (unitsFor nbytes)) = m1 at hsize1 hmore
  have hfound : ptr (setPtr (setPtr m1 a base) base a) base = a := ptr_setPtr_self ha
  have hlarge : size (setPtr (setPtr m1 a base) base a) a ≥ unitsFor nbytes := by
    rw [size_setPtr (.inr happart), size_setPtr (.inl rfl), hsize1]
    exact le_atLeast _
  simp only [hptr]
  rw [mallocLoop, if_neg hsmall, if_pos rfl, hmore]
  simp only [hbase.ne', if_false, hfound]
  rw [mallocLoop, if_pos hlarge]
  exact ⟨_, _, rfl⟩

variable {own : Nat → Role} {holds : List Holding}

/-- The requests that `sbrk` gets as they are, and those for which it fails. -/
def GrowthFits (p : ProcId) (nbytes : Nat) (k : KernelState) : Prop :=
  headerSize * atLeast (unitsFor nbytes) < 2 ^ 31 ∨
    atLeast (unitsFor nbytes) = 2 ^ 28 + 1 ∧ NoRoom p k

/-- A larger request: `sbrk` succeeds, the process grows by one header at most, and
`malloc` uses a block of the whole size. -/
theorem exists_malloc_ungrown (h : KernelInv im own holds k) (hp : (k.proc p).pagetable ≠ 0)
    (hkern : kernBase ≤ im.endAddr) (hbase : 0 < base)
    (habove : base + headerSize ≤ (k.proc p).sz) (hbytes : nbytes < 2 ^ 32)
    (hlarge : ¬GrowthFits p nbytes k) (m : Memory) :
    ∃ res h' k', malloc (recorded im p) base 3 nbytes ⟨m, 0⟩ (k, []) =
        some (res, h', k', [⟨k, (k.proc p).sz, k'⟩]) ∧
      (k'.proc p).sz ≤ (k.proc p).sz + headerSize := by
  have hsz := size_le h hp hkern
  have hunits := unitsFor_le hbytes
  have hbig : 2 ^ 31 ≤ headerSize * atLeast (unitsFor nbytes) :=
    Nat.not_lt.mp fun hlt => hlarge (.inl hlt)
  have hle : atLeast (unitsFor nbytes) ≤ 2 ^ 28 + 1 := by
    rcases atLeast_cases (unitsFor nbytes) with heq | heq <;> omega
  have hcall : ∃ k', kernelSbrk im p (sbrkArg (atLeast (unitsFor nbytes))) k =
      some (((k.proc p).sz : Int), k') ∧ (k'.proc p).sz ≤ (k.proc p).sz + headerSize := by
    rcases Nat.lt_or_ge (2 ^ 28) (atLeast (unitsFor nbytes)) with hlt | hge
    · -- The product is one header above `2 ^ 32`.
      have heq : atLeast (unitsFor nbytes) = 2 ^ 28 + 1 := by omega
      have harg : sbrkArg (atLeast (unitsFor nbytes)) = headerSize := by
        rw [heq]
        decide
      have hroom : ¬GrowthFails im p headerSize k := fun hfails =>
        hlarge (.inr ⟨heq, (growthFails_iff h hp hkern).mp hfails⟩)
      rw [harg]
      obtain ⟨k', -, -, -, ⟨hboth, -⟩ | ⟨-, hrun, hsize⟩⟩ := kernelSbrk_spec h hp hkern headerSize
      · exact (hroom hboth.2).elim
      · refine ⟨k', hrun, ?_⟩
        rw [if_pos (by decide), newSize] at hsize
        unfold headerSize at *
        omega
    · have harg := sbrkArg_nonpos hbig hge
      obtain ⟨k', -, -, -, ⟨hboth, -⟩ | ⟨-, hrun, hsize⟩⟩ :=
        kernelSbrk_spec h hp hkern (sbrkArg (atLeast (unitsFor nbytes)))
      · exact (Int.not_lt.mpr harg hboth.1).elim
      · refine ⟨k', hrun, ?_⟩
        rw [if_neg (Int.not_lt.mpr harg)] at hsize
        omega
  obtain ⟨k', hrun, hsize⟩ := hcall
  have hrecorded : recorded im p (sbrkArg (atLeast (unitsFor nbytes))) (k, []) =
      some (((k.proc p).sz : Int), k', [⟨k, (k.proc p).sz, k'⟩]) := by
    rw [recorded, hrun]
    rfl
  obtain ⟨res, h', hmalloc⟩ := malloc_first (m := m) hbase habove (by omega) (by omega) hrecorded
  exact ⟨res, h', k', hmalloc, hsize⟩

/-- Every block that `malloc` puts into the free list was obtained from the kernel exactly for
the requests below `2 ^ 31` bytes, and for the largest one if `sbrk` fails. -/
theorem growth_sound_iff (h : KernelInv im own holds k) (hp : (k.proc p).pagetable ≠ 0)
    (hkern : kernBase ≤ im.endAddr) (hbase : 0 < base)
    (habove : base + headerSize ≤ (k.proc p).sz) (hbytes : nbytes < 2 ^ 32) :
    GrowthSound im p base nbytes k ↔ GrowthFits p nbytes k := by
  constructor
  · intro hsound
    by_contra hlarge
    obtain ⟨res, h', k', hrun, hsize⟩ :=
      exists_malloc_ungrown h hp hkern hbase habove hbytes hlarge fun _ => 0
    have hbig : 2 ^ 31 ≤ headerSize * atLeast (unitsFor nbytes) :=
      Nat.not_lt.mp fun hlt => hlarge (.inl hlt)
    rcases hsound _ _ _ _ _ _ hrun _ (List.mem_singleton_self _) with ⟨-, -, hgrew⟩ | ⟨hfailed, -⟩
    · simp only at hgrew
      have hheader : headerSize < 2 ^ 31 := by decide
      omega
    · simp only at hfailed
      omega
  · rintro hfits fuel h0 res h' k' calls hrun
    rcases hfits with hlt | ⟨heq, hroom⟩
    · refine mallocLoop_recorded
        (I := fun k => ∃ own, KernelInv im own holds k ∧ (k.proc p).pagetable ≠ 0) ?_ ⟨own, h, hp⟩
        (by simp) hrun
      rintro k a k' ⟨own, h, hp⟩ hcall
      obtain ⟨a', k1, own', hrun, hinv, hp', hcases⟩ := grew_of_lt h hp hkern (atLeast_pos _) hlt
      cases hrun.symm.trans hcall
      exact hcases.imp id fun hgrew => ⟨hgrew.1, hgrew.2, own', hinv, hp'⟩
    · refine mallocLoop_recorded (I := fun k' => k' = k) ?_ rfl (by simp) hrun
      rintro _ a k' rfl hcall
      have harg : sbrkArg (atLeast (unitsFor nbytes)) = headerSize := by
        rw [heq]
        decide
      rw [harg] at hcall
      obtain ⟨k1, -, -, -, ⟨-, hrun⟩ | ⟨hnot, -⟩⟩ := kernelSbrk_spec h hp hkern headerSize
      · cases hrun.symm.trans hcall
        exact .inl rfl
      · exact (hnot ⟨by decide, (growthFails_iff h hp hkern).mpr hroom⟩).elim

end Malloc

/-- The first process asks for 100 bytes. -/
theorem growth_sound_small : GrowthFits 0 100 (smallStart.withFails []) ∧
    GrowthSound smallImage 0 16 100 (smallStart.withFails []) := by
  obtain ⟨⟨own, hinv⟩, -⟩ := smallStart_started.kernelInv
  have hstate : (smallStart.proc 0).state = .runnable := by decide +kernel
  have hsize : (smallStart.proc 0).sz = 4096 := by decide +kernel
  have hfits : GrowthFits 0 100 (smallStart.withFails []) := .inl (by decide)
  refine ⟨hfits, (growth_sound_iff (hinv.withFails [])
    (show (smallStart.proc 0).pagetable ≠ 0 from hinv.pagetable_ne_zero hstate) (by decide)
    (by decide) ?_ (by decide)).mpr hfits⟩
  rw [show ((smallStart.withFails []).proc 0).sz = 4096 from hsize]
  decide

/-- A process of 4096 bytes has asked for one header, so its size is not a multiple of a page and
the next header is in memory that it has.  It asks for `2 ^ 31` bytes, and gets a block of this size
at 4112 while it has not grown beyond one header. -/
theorem morecore_ungrown : ∃ k res h' k',
    kernelSbrk smallImage 0 16 (smallFork.withFails []) = some (4096, k) ∧ (k.proc 0).sz = 4112 ∧
    malloc (recorded smallImage 0) 16 3 (2 ^ 31) ⟨fun _ => 0, 0⟩ (k, []) =
      some (res, h', k', [⟨k, 4112, k'⟩]) ∧
    (k'.proc 0).sz < 4112 + headerSize * atLeast (unitsFor (2 ^ 31)) := by
  obtain ⟨own, hinv, -⟩ := smallFork_inv
  have hsize : ((smallFork.withFails []).proc 0).sz = 4096 :=
    show (smallFork.proc 0).sz = 4096 by decide +kernel
  have hp : ((smallFork.withFails []).proc 0).pagetable ≠ 0 :=
    hinv.pagetable_ne_zero smallFork_procs.1
  have hroom : ¬GrowthFails smallImage 0 headerSize (smallFork.withFails []) := fun hfails =>
    ((growthFails_iff (hinv.withFails []) hp (by decide)).mp hfails).2
      (smallFork_supplies.mono ((Nat.add_le_add_left (missing_le ..) 1).trans (by decide)))
  obtain ⟨k, own', hinv', hp', ⟨hfails, -⟩ | ⟨-, hsbrk, hsz⟩⟩ :=
    kernelSbrk_spec (hinv.withFails []) hp (by decide) headerSize
  · exact (hroom hfails.2).elim
  rw [hsize] at hsbrk
  rw [if_pos (by decide), newSize, hsize] at hsz
  have hlarge : ¬GrowthFits 0 (2 ^ 31) k := by
    rintro (hlt | ⟨heq, -⟩)
    · exact absurd hlt (by decide)
    · exact absurd heq (by decide)
  obtain ⟨res, h', k', hrun, hle⟩ := exists_malloc_ungrown hinv' hp' (by decide)
    (show 0 < 16 by decide) (by rw [hsz]; decide) (by decide) hlarge fun _ => 0
  rw [hsz] at hrun hle
  exact ⟨k, res, h', k', hsbrk, hsz, hrun, lt_of_le_of_lt hle (by decide)⟩

end Heap
end FastIpc
