import FastIpc.Files.References

/-!
# What every physical page is used for

The pages between the end of the kernel and the end of memory, read off the state: the
allocator's list, the page tables of the processes, their trap frames, the pipes, and what
the boot has taken for kernel stacks and the kernel's page table.  The ownership map of the
invariant of `FastIpc.Files.References` is the link: each of these uses fixes the role
of the page there, and each role there comes from one of these uses.

Main results:

- Theorem `FileInv.own_eq`: the role of a page follows from what it is used for.
- Theorem `FileInv.exists_uses`: a page with a role is used for something.
- Theorem `pages_conserved`: in every state of every run each page has exactly one use.
-/

namespace FastIpc
namespace Files

open Foundation Kernel

/-! ## Uses of a page -/

/-- What a physical page can be used for. -/
inductive PageUse where
  | free
  /-- The page-table page of a process at a path from the root. -/
  | node (q : ProcId) (path : List (Fin 512))
  /-- User memory of a process at an address. -/
  | user (q : ProcId) (va : Nat)
  | trapframe (q : ProcId)
  | kernelStack (q : ProcId)
  | pipe
  | kernelPageTable

/-- The pages that the boot takes from the allocator: a stack for each process and the pages of
the kernel's page table.  The others are left on the allocator's list. -/
structure Reserved (im : Image) (k : KernelState) where
  stack : ProcId → Nat
  pageTable : Nat → Prop
  stack_inj : Function.Injective stack
  stack_not_pageTable : ∀ q, ¬pageTable (stack q)
  reserved_iff : ∀ page, IsPage im page →
    (reservedAt k page ↔ (∃ q, stack q = page) ∨ pageTable page)

/-- A process has a page at a user address. -/
def State.MappedAt (s : State) (q : ProcId) (va page : Nat) : Prop :=
  va % pgSize = 0 ∧ va < trapframeVA ∧
    leaf s.kernel.ram.mem (s.kernel.proc q).pagetable va &&& pteV ≠ 0 ∧
      pte2pa (leaf s.kernel.ram.mem (s.kernel.proc q).pagetable va) = page

/-- A page is used for something. -/
def State.Uses (s : State) {im : Image} {k : KernelState} (boot : Reserved im k) (page : Nat) :
    PageUse → Prop
  | .free => s.kernel.ram.OnFreeList page
  | .node q path => (s.kernel.proc q).state ≠ .unused ∧ path.length ≤ 2 ∧
      table s.kernel.ram.mem (s.kernel.proc q).pagetable path = some page
  | .user q va => (s.kernel.proc q).state ≠ .unused ∧ s.MappedAt q va page
  | .trapframe q => (s.kernel.proc q).state ≠ .unused ∧ (s.kernel.proc q).trapframe = page
  | .kernelStack q => boot.stack q = page
  | .pipe => s.RefersToPipe page
  | .kernelPageTable => boot.pageTable page

/-- The role that goes with a use. -/
def PageUse.role (proc : ProcId → Proc) : PageUse → Role
  | .free => .free
  | .node q path => .node (proc q).pagetable path
  | .user q va => .user (proc q).pagetable (va / pgSize)
  | .trapframe q => .trapframe q
  | .kernelStack _ => .kernel
  | .pipe => .pipe
  | .kernelPageTable => .kernel

/-! ## Uses and roles -/

namespace FileInv

variable {im : Image} {k0 : KernelState} {own : Nat → Role} {s : State} {page : Nat}
  {boot : Reserved im k0}

variable (h : FileInv im (reservedAt k0) [] own 0 s)
include h

theorem pagetable_ne_zero {q : ProcId} (hq : (s.kernel.proc q).state ≠ .unused) :
    (s.kernel.proc q).pagetable ≠ 0 := fun hzero =>
  hq ((h.kernel.procs.unused q).mp hzero)

/-- The only pages that a process has below its trap frame are its own. -/
theorem own_of_mappedAt {q : ProcId} {va : Nat} (hq : (s.kernel.proc q).pagetable ≠ 0)
    (hmap : s.MappedAt q va page) : own page = .user (s.kernel.proc q).pagetable (va / pgSize) := by
  obtain ⟨-, hva, hvalid, hpage⟩ := hmap
  have hspace := h.kernel.spaces.space q hq
  have htop : trapframeVA < maxVA := by decide
  rcases exists_part (hva.trans htop) with hlow | ⟨w, i, hi, hw⟩ | htrap | htramp
  · by_cases hn : va < userPages (s.kernel.proc q).sz * pgSize
    · obtain ⟨pa, perm, hperm, hleaf, hown⟩ := hspace.user va hn
      have hpa := h.kernel.spaces.owned.page pa (by simp [hown])
      rwa [← hpage, hleaf, pte2pa_mkPte hperm.1 hpa.aligned hpa.lt_pow]
    · rw [hspace.gap va (Nat.le_of_not_lt hn) hlow] at hvalid
      exact absurd rfl hvalid
  · rw [leaf_eq_of_page hw, h.kernel.spaces.leaf_of_none hq rfl hi] at hvalid
    exact absurd rfl hvalid
  · rw [trapframeVA_eq] at hva htrap
    unfold pgSize at htrap
    omega
  · rw [trapframeVA_eq] at hva
    rw [trampolineVA_eq] at htramp
    unfold pgSize at htramp
    omega

/-- The role of a page follows from what it is used for. -/
theorem own_eq (hpage : IsPage im page) {use : PageUse} (huse : s.Uses boot page use) :
    own page = use.role s.kernel.proc := by
  cases use with
  | free => exact h.kernel.spaces.owned.onFreeList_iff.mp huse
  | node q path =>
    obtain ⟨hq, hlen, hn⟩ := huse
    exact h.kernel.spaces.owned.own_table (Spaces.isRoot (h.pagetable_ne_zero hq)) hlen hn
  | user q va => exact h.own_of_mappedAt (h.pagetable_ne_zero huse.1) huse.2
  | trapframe q =>
    have htrap := h.kernel.spaces.trapframe q (h.pagetable_ne_zero huse.1)
    rwa [huse.2] at htrap
  | kernelStack q =>
    exact (h.boot_iff page).mpr ((boot.reserved_iff page hpage).mpr (.inl ⟨q, huse⟩))
  | pipe => exact (h.refersToPipe_iff page).mp huse
  | kernelPageTable => exact (h.boot_iff page).mpr ((boot.reserved_iff page hpage).mpr (.inr huse))

theorem exists_proc {r : Nat} (hr : IsRoot s.kernel.proc r) :
    ∃ q, (s.kernel.proc q).state ≠ .unused ∧ (s.kernel.proc q).pagetable = r := by
  obtain ⟨hne, q, rfl⟩ := hr
  exact ⟨q, fun hunused => hne ((h.kernel.procs.unused q).mpr hunused), rfl⟩

theorem mappedAt {q : ProcId} {i : Nat} (hq : (s.kernel.proc q).pagetable ≠ 0)
    (hown : own page = .user (s.kernel.proc q).pagetable i) : s.MappedAt q (i * pgSize) page := by
  have hspace := h.kernel.spaces.space q hq
  have hi := hspace.bound page i hown
  have hlt : i * pgSize < userPages (s.kernel.proc q).sz * pgSize :=
    Nat.mul_lt_mul_of_pos_right hi (by decide)
  obtain ⟨pa, perm, hperm, hleaf, hpa⟩ := hspace.user _ hlt
  rw [Nat.mul_div_cancel i (by decide : 0 < pgSize)] at hpa
  have heq : pa = page := hspace.unique pa page i hpa hown
  have hisPage := h.kernel.spaces.owned.page pa (by simp [hpa])
  have htop : mapStart < trapframeVA := by decide
  refine ⟨Nat.mul_mod_left i pgSize, (hlt.trans_le hspace.fits).trans htop, ?_, ?_⟩
  · rw [hleaf]
    exact mkPte_valid hperm.1
  · rw [hleaf, pte2pa_mkPte hperm.1 hisPage.aligned hisPage.lt_pow, heq]

/-- A page is used for something: no page is lost. -/
theorem exists_uses (hpage : IsPage im page) : ∃ use, s.Uses boot page use := by
  have hlives := h.kernel.spaces.rooted page
  cases hown : own page with
  | free => exact ⟨.free, h.kernel.spaces.owned.onFreeList_iff.mpr hown⟩
  | node r path =>
    have hr : IsRoot s.kernel.proc r := by simpa [hown, Role.Lives] using hlives
    obtain ⟨q, hq, rfl⟩ := h.exists_proc hr
    exact ⟨.node q path, hq, h.kernel.spaces.owned.reached _ hr path page hown⟩
  | user r i =>
    have hr : IsRoot s.kernel.proc r := by simpa [hown, Role.Lives] using hlives
    obtain ⟨q, hq, rfl⟩ := h.exists_proc hr
    exact ⟨.user q (i * pgSize), hq, h.mappedAt hr.1 hown⟩
  | trapframe i =>
    obtain ⟨q, -, hq, htrap⟩ := h.kernel.spaces.trapframe_only page i hown
    exact ⟨.trapframe q, fun hunused => hq ((h.kernel.procs.unused q).mpr hunused), htrap⟩
  | kernel =>
    rcases (boot.reserved_iff page hpage).mp ((h.boot_iff page).mp hown) with ⟨q, hq⟩ | htable
    · exact ⟨.kernelStack q, hq⟩
    · exact ⟨.kernelPageTable, htable⟩
  | pipe => exact ⟨.pipe, (h.refersToPipe_iff page).mpr hown⟩
  -- Nobody holds a ring, and no call is on its way.
  | _ => simpa [hown] using h.global rfl page (by rw [hown]; trivial)

theorem uses_unique (hpage : IsPage im page) {use use' : PageUse} (huse : s.Uses boot page use)
    (huse' : s.Uses boot page use') : use' = use := by
  have hrole : use'.role s.kernel.proc = use.role s.kernel.proc :=
    (h.own_eq hpage huse').symm.trans (h.own_eq hpage huse)
  have hinj : ∀ {q q' : ProcId}, (s.kernel.proc q').state ≠ .unused →
      (s.kernel.proc q').pagetable = (s.kernel.proc q).pagetable → q' = q := fun hq' heq =>
    h.kernel.spaces.root_inj _ _ (h.pagetable_ne_zero hq') heq
  cases use <;> cases use' <;> simp only [PageUse.role, reduceCtorEq, Role.node.injEq,
    Role.user.injEq, Role.trapframe.injEq] at hrole
  case free.free => rfl
  case pipe.pipe => rfl
  case kernelPageTable.kernelPageTable => rfl
  case node.node => rw [hinj huse'.1 hrole.1, hrole.2]
  case trapframe.trapframe => rw [Fin.ext hrole]
  case user.user q va q' va' =>
    have haligned := huse.2.1
    have haligned' := huse'.2.1
    have hva : va' = va := by
      have hdiv := hrole.2
      unfold pgSize at haligned haligned' hdiv
      omega
    rw [hinj huse'.1 hrole.1, hva]
  case kernelStack.kernelStack => rw [boot.stack_inj (huse'.trans huse.symm)]
  case kernelStack.kernelPageTable q => exact (boot.stack_not_pageTable q (huse.symm ▸ huse')).elim
  case kernelPageTable.kernelStack q => exact (boot.stack_not_pageTable q (huse'.symm ▸ huse)).elim

end FileInv

/-! ## Every run -/

/-- In every state that calls of any processes lead to, with any page allocations failing, each
page between the end of the kernel and the end of memory has exactly one use: it is on the
allocator's list (where no page occurs twice), or it is one page-table page of one process, or
user memory at one address of one process, or the trap frame of one process, or a kernel
stack, or a pipe to which a descriptor refers, or a page of the kernel's page table. -/
theorem pages_conserved {im : Image} {k0 k : KernelState} {s : State} {events : List Event}
    (hboot : Booted im k0) (boot : Reserved im k0) (hinit : userinit im k0 = .ok ((), k))
    (hrun : Run (StepOf (step im)) (.start k) events s) :
    (∃ l, Threaded s.kernel.ram.mem s.kernel.ram.freelist l ∧ l.Nodup) ∧
      ∀ page, IsPage im page → ∃! use, s.Uses boot page use := by
  obtain ⟨own, hinv⟩ : Kept im (reservedAt k0) [] s := hrun.invariant Kept.step (.start hboot hinit)
  obtain ⟨l, hl, hnodup, -⟩ := hinv.kernel.spaces.owned.free
  refine ⟨⟨l, hl, hnodup⟩, fun page hpage => ?_⟩
  obtain ⟨use, huse⟩ := hinv.exists_uses hpage
  exact ⟨use, huse, fun use' huse' => hinv.uses_unique hpage huse huse'⟩

/-- A kernel stack of the small machine. -/
def smallStack (q : ProcId) : Nat := smallImage.endAddr + (200 + q) * pgSize

theorem smallStack_reserved (q : ProcId) : reservedAt smallBoot (smallStack q) := by
  rintro ⟨l, hl, hmem⟩
  have hfree : Threaded smallBoot.ram.mem smallBoot.ram.freelist
      ((List.range 100).map fun i => smallImage.endAddr + i * pgSize) := by decide +kernel
  rw [hl.unique hfree] at hmem
  obtain ⟨i, hi, heq⟩ := List.mem_map.mp hmem
  have hi := List.mem_range.mp hi
  unfold smallStack pgSize at heq
  omega

/-- The small machine has its stacks after the free pages; the rest belongs to the kernel. -/
def smallReserved : Reserved smallImage smallBoot where
  stack := smallStack
  pageTable page := reservedAt smallBoot page ∧ ∀ q, smallStack q ≠ page
  stack_inj q q' h := by
    apply Fin.ext
    unfold smallStack pgSize at h
    omega
  stack_not_pageTable q h := h.2 q rfl
  reserved_iff page hpage := by
    constructor
    · intro hres
      by_cases hstack : ∃ q, smallStack q = page
      · exact .inl hstack
      · exact .inr ⟨hres, fun q hq => hstack ⟨q, hq⟩⟩
    · rintro (⟨q, rfl⟩ | hres)
      · exact smallStack_reserved q
      · exact hres.1

/-- The first process makes a pipe and a child, and asks for memory that it does not get. -/
theorem pages_conserved_small : ∃ s, Run (StepOf (step smallImage)) (.start smallStart)
    [⟨0, .sysPipe 0, []⟩, ⟨0, .sysFork, []⟩, ⟨0, .sysSbrk 8192, [true]⟩] s ∧
      ∀ page, IsPage smallImage page → ∃! use, s.Uses smallReserved page use := by
  have hok : (exec (step smallImage) (.start smallStart) [⟨0, .sysPipe 0, []⟩, ⟨0, .sysFork, []⟩,
      ⟨0, .sysSbrk 8192, [true]⟩]).isSome = true := by decide +kernel
  obtain ⟨s, hexec⟩ := Option.isSome_iff_exists.mp hok
  have hrun := run_of_exec hexec
  exact ⟨s, hrun, (pages_conserved smallBoot_booted smallReserved smallStart_eq hrun).2⟩

end Files
end FastIpc
