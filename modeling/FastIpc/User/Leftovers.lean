import FastIpc.Kernel.Outcomes
import FastIpc.User.Layout

/-!
# What a failed creation leaves behind

`createRingBuf` as a whole: the system call, which changes the ring table and the page table
of the process, and then the code of the library, which changes `user_ring_bufs`.  The system
call comes first; when the library then finds that the name is too long or that its own table is
full, it returns without closing the ring again.

The ring table, the user table and the name are arbitrary.  Of the machine it is only assumed that
its page tables are trees and that the process has the page-table page that every process has.

Main results:

- Theorem `createRingBuf_clean_iff`: when a call leaves nothing behind.
-/

namespace FastIpc
namespace User

open Foundation Kernel

/-! ## The whole call -/

/-- The name as `sys_createbuf` passes it on.  Its buffer has sixteen bytes; a name that does
not fit is not terminated and continues with what the stack holds after the buffer. -/
def argName (stack straddr : CString) : CString :=
  if straddr.bytes.length < 16 then straddr
  else
    { bytes := straddr.bytes.take 16 ++ stack.bytes
      nonzero := fun h => (List.mem_append.mp h).elim
        (fun h => straddr.nonzero (List.mem_of_mem_take h)) stack.nonzero }

/-- The pointer that a process finds in its variable at `va`. -/
def pointerAt (k : KernelState) (p : ProcId) (va : Nat) : Nat :=
  Memory.readLE (fun a => (userByte k.ram.mem (k.proc p).pagetable a).getD 0) va 8

/-- What a call of `createRingBuf` works on: the kernel and the memory with
`user_ring_bufs`. -/
structure Caller where
  kernel : KernelState
  data : Memory

/-- The parameters of a call: the arguments, the places of the table and of the variable
`ringbuf`, the kernel stack, and what loads of the counters would find. -/
structure CreateArgs where
  straddr : CString
  opdesc : Int
  base : Nat
  retvaddr : Nat
  stack : CString
  seen : Counter → BitVec 64

/-- The whole of `createRingBuf`. -/
def createRingBufCall (im : Image) (p : ProcId) (c : CreateArgs) (s : Caller) :
    Except Fault (Int × Caller) := do
  let (existed, k) ← createbuf im p (argName c.stack c.straddr) c.opdesc c.retvaddr s.kernel
  let (rd, m) := (createRingBufAt s.data c.base (c.straddr.bytes.map UInt8.ofBitVec) existed
    (pointerAt k p c.retvaddr)).outcome c.seen
  return (rd, ⟨k, m⟩)

/-! ## Leaving nothing behind -/

/-- The ring table, the mappings of the process and the user table are as before. -/
structure Untouched (p : ProcId) (s s' : Caller) : Prop where
  ringbufs : s'.kernel.ringbufs = s.kernel.ringbufs
  mappings : ∀ va < maxVA, leaf s'.kernel.ram.mem (s.kernel.proc p).pagetable va =
    leaf s.kernel.ram.mem (s.kernel.proc p).pagetable va
  table : s'.data = s.data

/-- Of the user table only one entry has changed. -/
def OnlyEntry (base : Nat) (i : Fin User.maxRingbufs) (s s' : Caller) : Prop :=
  ∀ x, ¬(entryAddr base i ≤ x ∧ x < entryAddr base i + entrySize) → s'.data x = s.data x

/-- A call stays in the ring table; it leaves nothing behind if it fails, and writes to the chosen
entry only if it succeeds. -/
structure Clean (im : Image) (p : ProcId) (c : CreateArgs) (s : Caller) : Prop where
  inBounds : ∀ i, createRingBufCall im p c s ≠ .error (.outOfBounds i)
  failed : ∀ s', createRingBufCall im p c s = .ok (-1, s') → Untouched p s s'
  succeeded : ∀ rd s', createRingBufCall im p c s = .ok (rd, s') → rd ≠ -1 →
    ∃ i : Fin User.maxRingbufs, rd = i.val ∧ OnlyEntry c.base i s s'

/-- The library can use what the system call opens. -/
def HasEntry (c : CreateArgs) (m : Memory) : Prop :=
  c.straddr.bytes.length ≤ 16 ∧ freeEntry (tableOf m c.base) ≠ none

/-- The condition: the system call finds a slot, a new ring gets a window, and what is opened gets
an entry of the user table. -/
structure Undone (p : ProcId) (c : CreateArgs) (s : Caller) : Prop where
  slot : FindsSlot s.kernel (argName c.stack c.straddr) c.opdesc
  window : ¬LosesSlot s.kernel p (argName c.stack c.straddr) c.opdesc
  entry : Opens s.kernel p (argName c.stack c.straddr) c.opdesc → HasEntry c s.data

section Call

variable {im : Image} {p : ProcId} {c : CreateArgs} {s : Caller} {k : KernelState} {existed : Int}

/-- A fault of the system call is one of the whole call. -/
theorem createRingBufCall_of_error {e : Fault}
    (h : createbuf im p (argName c.stack c.straddr) c.opdesc c.retvaddr s.kernel = .error e) :
    createRingBufCall im p c s = .error e := by
  rw [createRingBufCall, h]
  rfl

theorem createRingBufCall_of_ok
    (h : createbuf im p (argName c.stack c.straddr) c.opdesc c.retvaddr s.kernel =
      .ok (existed, k)) :
    ∃ rd m, createRingBufCall im p c s = .ok (rd, ⟨k, m⟩) ∧
      (rd = -1 ↔ existed = -1 ∨ ¬HasEntry c s.data) ∧ (rd = -1 → m = s.data) ∧
      (rd ≠ -1 → ∃ i : Fin User.maxRingbufs, rd = i.val ∧ OnlyEntry c.base i s ⟨k, m⟩) := by
  have hframe := createRingBufAt_frame s.data c.base (c.straddr.bytes.map UInt8.ofBitVec) existed
    (pointerAt k p c.retvaddr) c.seen
  have hfails := createRingBufAt_fails_iff s.data c.base (c.straddr.bytes.map UInt8.ofBitVec)
    existed (pointerAt k p c.retvaddr) c.seen
  rw [createRingBufCall, h]
  refine ⟨_, _, rfl, hfails.trans (or_congr_right ?_), fun hrd => ?_, fun hrd => ?_⟩
  · rw [List.length_map, HasEntry, Decidable.not_and_iff_not_or_not, not_le, not_not]
  · rcases hframe with heq | ⟨i, hi, -⟩
    · rw [heq]
    · omega
  · rcases hframe with heq | ⟨i, hi, honly⟩
    · exact (hrd (by rw [heq])).elim
    · exact ⟨i, hi, honly⟩

theorem Clean.of_ok {rd : Int} {s' : Caller} (h : createRingBufCall im p c s = .ok (rd, s'))
    (hfailed : rd = -1 → Untouched p s s')
    (hsucceeded : rd ≠ -1 → ∃ i : Fin User.maxRingbufs, rd = i.val ∧ OnlyEntry c.base i s s') :
    Clean im p c s where
  inBounds i hi := by
    rw [h] at hi
    cases hi
  failed s'' hs'' := by
    rw [h] at hs''
    cases hs''
    exact hfailed rfl
  succeeded rd' s'' hs'' hne := by
    rw [h] at hs''
    cases hs''
    exact hsucceeded hne

theorem Clean.of_panic {message : String}
    (h : createRingBufCall im p c s = .error (.panic message)) : Clean im p c s where
  inBounds i hi := by
    rw [h] at hi
    cases hi
  failed s' hs' := by
    rw [h] at hs'
    cases hs'
  succeeded rd s' hs' _ := by
    rw [h] at hs'
    cases hs'

/-- A call whose system call changes the ring table must not fail. -/
theorem Clean.result_ne (hclean : Clean im p c s)
    (h : createbuf im p (argName c.stack c.straddr) c.opdesc c.retvaddr s.kernel =
      .ok (existed, k)) (hne : k.ringbufs ≠ s.kernel.ringbufs) :
    existed ≠ -1 ∧ HasEntry c s.data := by
  obtain ⟨rd, m, hcall, hiff, -, -⟩ := createRingBufCall_of_ok h
  by_contra hnot
  rw [Decidable.not_and_iff_not_or_not, not_not] at hnot
  rw [hiff.mpr hnot] at hcall
  exact hne (hclean.failed _ hcall).ringbufs

end Call

/-- With any ring table, user table and name, `createRingBuf` leaves nothing behind exactly
under the condition. -/
theorem createRingBuf_clean_iff {im : Image} {own : Nat → Role} {roots : Nat → Prop} {s : Caller}
    {p : ProcId} {nd : Nat} (h : Owned im own roots s.kernel.ram)
    (hr : roots (s.kernel.proc p).pagetable)
    (htop : Kernel.table s.kernel.ram.mem (s.kernel.proc p).pagetable [255, 511] = some nd)
    (hpages : PagesAddressed s.kernel) (c : CreateArgs) : Clean im p c s ↔ Undone p c s := by
  constructor
  · intro hclean
    refine ⟨?_, fun hloses => ?_, fun hopens => ?_⟩
    · have hin : InBounds (createbuf im p (argName c.stack c.straddr) c.opdesc c.retvaddr)
          s.kernel := fun i hi => hclean.inBounds i (createRingBufCall_of_error hi)
      exact createbuf_inBounds_iff.mp hin
    · obtain ⟨k', hrun, hne⟩ := createbuf_of_losesSlot hloses im c.retvaddr
      exact (hclean.result_ne hrun hne).1 rfl
    · obtain ⟨res, k', hrun, -, hne⟩ := createbuf_of_opens h hr htop hpages hopens c.retvaddr
      exact (hclean.result_ne hrun hne).2
  · rintro ⟨hslot, hwindow, hentry⟩
    by_cases hopens : Opens s.kernel p (argName c.stack c.straddr) c.opdesc
    · obtain ⟨res, k', hrun, hres, -⟩ := createbuf_of_opens h hr htop hpages hopens c.retvaddr
      obtain ⟨rd, m, hcall, hiff, -, honly⟩ := createRingBufCall_of_ok hrun
      refine Clean.of_ok hcall (fun hrd => ?_) honly
      exact ((hiff.mp hrd).elim hres fun hnot => hnot (hentry hopens)).elim
    · rcases createbuf_otherwise h hr htop hpages hslot hopens hwindow c.retvaddr with hrun | hrun
      · obtain ⟨rd, m, hcall, hiff, hsame, -⟩ := createRingBufCall_of_ok hrun
        have hrd : rd = -1 := hiff.mpr (.inl rfl)
        exact Clean.of_ok hcall (fun _ => ⟨rfl, fun _ _ => rfl, hsame hrd⟩) fun hne =>
          (hne hrd).elim
      · exact Clean.of_panic (createRingBufCall_of_error hrun)

/-! ## A small machine -/

/-- A call by the first process of a small machine after it forked, with an empty user table. -/
def smallCaller : Caller := ⟨smallFork.withFails [], fun _ => 0⟩

/-- The call `createRingBuf(name, 0)`. -/
def smallArgs (straddr : CString) : CreateArgs := ⟨straddr, 0, 0x1000, 0, .empty, fun _ => 0⟩

/-- The name `aaaaaaaaaaaaaaaaa`, which is one byte too long. -/
def longName : CString := ⟨List.replicate 17 0x61, by decide⟩

theorem smallCaller_wellFormed : ∃ own nd,
    Owned smallImage own (IsRoot smallFork.proc) smallCaller.kernel.ram ∧
      IsRoot smallFork.proc (smallCaller.kernel.proc 0).pagetable ∧
      Kernel.table smallCaller.kernel.ram.mem (smallCaller.kernel.proc 0).pagetable [255, 511] =
        some nd ∧ PagesAddressed smallCaller.kernel := by
  obtain ⟨own, hinv, hzero⟩ := smallFork_inv
  have hp := hinv.pagetable_ne_zero smallFork_procs.1
  obtain ⟨nd, htop⟩ := (hinv.spaces.space 0 hp).exists_top
  refine ⟨own, nd, (hinv.withFails []).spaces.owned, Spaces.isRoot hp, htop, fun j => ?_⟩
  rw [show smallCaller.kernel.ringbufs j = .zero from hzero j]
  exact ⟨fun _ => (by decide : 0 < 2 ^ 56), by decide⟩

theorem smallCaller_opens {straddr : CString} (hname : straddr ≠ .empty) :
    Opens smallCaller.kernel 0 straddr 0 := by
  obtain ⟨own, hinv, -⟩ := smallFork_inv
  have hp := hinv.pagetable_ne_zero smallFork_procs.1
  have hfound : findName smallCaller.kernel straddr = none := smallFork_unnamed hname
  have hnew : attaches smallCaller.kernel straddr = false := by rw [attaches, hfound]
  refine ⟨by decide, .inr (.inr ?_), fun h => ?_, 0, hinv.spaces.firstWindow_eq hp rfl,
    fun i hi => ?_⟩
  · rw [show findFree smallCaller.kernel = some 0 from smallFork_free]
    simp
  · rw [hnew] at h
    cases h
  · rw [show leaf smallCaller.kernel.ram.mem (smallCaller.kernel.proc 0).pagetable
      (window 0 + i * pgSize) = 0 from hinv.spaces.leaf_of_none hp rfl (by omega), Nat.zero_and]

/-- Making a ring with a short name. -/
theorem createRingBuf_clean_small : Clean smallImage 0 (smallArgs ringName) smallCaller := by
  obtain ⟨own, nd, howned, hroot, htop, hpages⟩ := smallCaller_wellFormed
  have hopens : Opens smallCaller.kernel 0 ringName 0 := smallCaller_opens (by decide)
  refine (createRingBuf_clean_iff howned hroot htop hpages _).mpr ⟨hopens.slot, fun hloses => ?_,
    fun _ => ⟨by decide, by decide⟩⟩
  obtain ⟨w, hw, -⟩ := hopens.window
  rw [show firstWindow smallCaller.kernel.ram.mem (smallCaller.kernel.proc 0).pagetable = none from
    hloses.window] at hw
  cases hw

/-- With a name that is too long the call returns -1, but the ring is there. -/
theorem createRingBuf_leaves_ring : ∃ s',
    createRingBufCall smallImage 0 (smallArgs longName) smallCaller = .ok (-1, s') ∧
      s'.kernel.ringbufs ≠ smallCaller.kernel.ringbufs := by
  obtain ⟨own, nd, howned, hroot, htop, hpages⟩ := smallCaller_wellFormed
  have hopens : Opens smallCaller.kernel 0 (argName .empty longName) 0 :=
    smallCaller_opens (by decide)
  obtain ⟨res, k', hrun, -, hne⟩ := createbuf_of_opens howned hroot htop hpages hopens 0
  obtain ⟨rd, m, hcall, hiff, -, -⟩ := createRingBufCall_of_ok (c := smallArgs longName) hrun
  have hrd : rd = -1 := hiff.mpr (.inr fun hentry => absurd hentry.1 (by decide))
  rw [hrd] at hcall
  exact ⟨⟨k', m⟩, hcall, hne⟩

end User
end FastIpc
