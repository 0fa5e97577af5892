import FastIpc.Kernel.State
import Mathlib

/-!
# Processes

The functions of `kernel/proc.c` that create, copy, end and free processes.  The
calls are atomic; what other processors allocate meanwhile is part of the input of a
run.  Open files and the current directory are not modelled.
-/

namespace FastIpc
namespace Kernel

open Foundation

/-! ## Page tables of processes -/

/-- A page table with the trap pages and no user memory, or `0`. -/
def procPagetable (im : Image) (trapframe : Nat) : RamM Nat := do
  let pagetable ← uvmcreate
  if pagetable = 0 then
    return 0
  else if (← mappages pagetable trampolineVA pgSize im.trampoline (pteR ||| pteX)) < 0 then
    uvmfree im pagetable 0
    return 0
  else if (← mappages pagetable trapframeVA pgSize trapframe (pteR ||| pteW)) < 0 then
    uvmunmap im pagetable trampolineVA 1 false
    uvmfree im pagetable 0
    return 0
  else
    return pagetable

/-- Free a page table and the user memory it maps. -/
def procFreepagetable (im : Image) (pagetable sz : Nat) : RamM Unit := do
  uvmunmap im pagetable trampolineVA 1 false
  uvmunmap im pagetable trapframeVA 1 false
  uvmfree im pagetable sz

/-! ## Allocating and freeing processes -/

/-- Free a process and its image.  The ring flag is not reset. -/
def freeproc (im : Image) (p : ProcId) : KernelM Unit := do
  let q := (← get).proc p
  if q.trapframe ≠ 0 then
    onRam (kfree im q.trapframe)
  if q.pagetable ≠ 0 then
    onRam (procFreepagetable im q.pagetable q.sz)
  modify fun k => k.setProc p fun q =>
    { q with
      trapframe := 0, pagetable := 0, sz := 0, pid := 0, parent := none
      killed := false, xstate := 0, state := .unused }

/-- The next process identifier.  It is a number without bound: `nextpid` does not wrap around. -/
def allocpid : KernelM Nat := do
  let pid := (← get).nextpid
  modify fun k => { k with nextpid := pid + 1 }
  return pid

/-- Find an unused process and give it an identifier, a trap frame and a page table. -/
def allocproc (im : Image) : KernelM (Option ProcId) := do
  let k ← get
  match (List.finRange nproc).find? fun p => (k.proc p).state = .unused with
  | none => return none
  | some p =>
    let pid ← allocpid
    let trapframe ← onRam kalloc
    modify fun k => k.setProc p fun q =>
      { q with pid := pid, state := .used, trapframe := trapframe }
    if trapframe = 0 then
      freeproc im p
      return none
    else
      let pagetable ← onRam (procPagetable im trapframe)
      modify fun k => k.setProc p fun q => { q with pagetable := pagetable }
      if pagetable = 0 then
        freeproc im p
        return none
      else
        return some p

/-! ## System calls -/

/-- Offsets in `struct trapframe`. -/
def tfEpc : Nat := 24

/-- The saved stack pointer. -/
def tfSp : Nat := 48

/-- The saved first argument, which a system call returns in. -/
def tfA0 : Nat := 112

/-- The saved second argument. -/
def tfA1 : Nat := 120

/-- The size of `struct trapframe`. -/
def tfSize : Nat := 288

/-- The first program, `initcode`. -/
def initcode : List (BitVec 8) :=
  [0x17, 0x05, 0x00, 0x00, 0x13, 0x05, 0x45, 0x02, 0x97, 0x05, 0x00, 0x00, 0x93, 0x85, 0x35, 0x02,
   0x93, 0x08, 0x70, 0x00, 0x73, 0x00, 0x00, 0x00, 0x93, 0x08, 0x20, 0x00, 0x73, 0x00, 0x00, 0x00,
   0xef, 0xf0, 0x9f, 0xff, 0x2f, 0x69, 0x6e, 0x69, 0x74, 0x00, 0x00, 0x24, 0x00, 0x00, 0x00, 0x00,
   0x00, 0x00, 0x00, 0x00]

/-- Set up the first process.  A failed allocation is not tested and traps. -/
def userinit (im : Image) : KernelM Unit := do
  match ← allocproc im with
  | none => throw (.panic "kerneltrap")
  | some p =>
    modify fun k => { k with initproc := some p }
    let q := (← get).proc p
    onRam (uvminit q.pagetable initcode)
    onRam (storeWord (q.trapframe + tfEpc) 0)
    onRam (storeWord (q.trapframe + tfSp) pgSize)
    modify fun k => k.setProc p fun q => { q with sz := pgSize, state := .runnable }

/-- Record the size of a process. -/
def setSize (p : ProcId) (sz : Nat) : KernelM Unit :=
  modify fun k => k.setProc p fun q => { q with sz := sz }

/-- Grow or shrink the user memory of a process by `n` bytes.  The size is computed in an
unsigned variable of 32 bits. -/
def growproc (im : Image) (p : ProcId) (n : Int) : KernelM Int := do
  let q := (← get).proc p
  let sz := q.sz % 2 ^ 32
  let newsz := ((sz + n) % 2 ^ 32).toNat
  if 0 < n then
    let sz := (← onRam (uvmalloc im q.pagetable sz newsz)) % 2 ^ 32
    if sz = 0 then
      return -1
    else
      setSize p sz
      return 0
  else if n < 0 then
    let sz := (← onRam (uvmdealloc im q.pagetable sz newsz)) % 2 ^ 32
    setSize p sz
    return 0
  else
    setSize p sz
    return 0

/-- Change the size of a process; the size it had. -/
def sbrk (im : Image) (p : ProcId) (n : Int) : KernelM Int := do
  let addr := ((← get).proc p).sz
  if (← growproc im p n) < 0 then
    return -1
  else
    return addr

/-- Create a child with a copy of the caller's memory.  Every failure panics. -/
def fork (im : Image) (p : ProcId) : KernelM Int := do
  match ← allocproc im with
  | none => throw (.panic "1")
  | some np =>
    let k ← get
    let parent := k.proc p
    let child := k.proc np
    if (← onRam (uvmcopy im parent.pagetable child.pagetable parent.sz)) < 0 then
      throw (.panic "2")
    else
      onRam (moveBytes child.trapframe parent.trapframe tfSize)
      onRam (storeWord (child.trapframe + tfA0) 0)
      modify fun k => k.setProc np fun q =>
        { q with sz := parent.sz, parent := some p, state := .runnable }
      return child.pid

/-- Pass the children of an ending process to the first process. -/
def reparent (p : ProcId) : KernelM Unit :=
  modify fun k => { k with
    proc := fun pp =>
      if (k.proc pp).parent = some p then
        { k.proc pp with parent := k.initproc }
      else
        k.proc pp }

/-- End the caller.  The call that would release its rings is commented out in the
source. -/
def exit (p : ProcId) (status : Int) : KernelM Unit := do
  if (← get).initproc = some p then
    throw (.panic "init exiting")
  else
    reparent p
    modify fun k => k.setProc p fun q => { q with xstate := status, state := .zombie }

/-- The four bytes of an `int`. -/
def intBytes (n : Int) : List (BitVec 8) := (List.range 4).map (Memory.byteOf (n % 2 ^ 32).toNat)

/-- The first child that has ended. -/
def zombieChild (k : KernelState) (p : ProcId) : Option ProcId :=
  (List.finRange nproc).find? fun np =>
    (k.proc np).parent = some p ∧ (k.proc np).state = .zombie

/-- Copy an exit status to the caller, which may not want it. -/
def copyStatus (p : ProcId) (addr : Nat) (status : Int) : KernelM Int := do
  if addr ≠ 0 then
    onRam (copyout ((← get).proc p).pagetable addr 0 (intBytes status))
  else
    return 0

/-- Free a child that has ended and return its identifier.  `none` if the caller has
to sleep until a child ends. -/
def wait (im : Image) (p : ProcId) (addr : Nat) : KernelM (Option Int) := do
  let k ← get
  match zombieChild k p with
  | some np =>
    let child := k.proc np
    if (← copyStatus p addr child.xstate) < 0 then
      return some (-1)
    else
      freeproc im np
      return some child.pid
  | none =>
    let havekids := (List.finRange nproc).any fun np => (k.proc np).parent = some p
    if ¬havekids ∨ (k.proc p).killed then
      return some (-1)
    else
      return none

/-- Mark the process with a given identifier as killed. -/
def kill (pid : Nat) : KernelM Int := do
  let k ← get
  match (List.finRange nproc).find? fun p => (k.proc p).pid = pid with
  | none => return -1
  | some p =>
    modify fun k => k.setProc p fun q =>
      { q with
        killed := true
        state := if q.state = .sleeping then .runnable else q.state }
    return 0

end Kernel
end FastIpc
