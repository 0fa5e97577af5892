import FastIpc.Kernel.State
import Mathlib

/-!
# Ring buffers

The functions of `kernel/ringbuf.c`.  A ring is a slot of the table: sixteen data
pages and a book page that up to two processes map, the data pages twice in a row, into
one of ten windows below the trap frame.  Loops over the table are searches of its
slots; every access to a slot checks the index the source computes.
-/

namespace FastIpc
namespace Kernel

open Foundation

/-- The first window, `MAP_START`. -/
def mapStart : Nat := maxVA - 2 * pgSize - 10 * 34 * pgSize

/-- The distance of two windows, `SPACE_JUMP`. -/
def spaceJump : Nat := 34 * pgSize

/-- The last address a window may start at, `MAXMAPLOC`. -/
def maxMapLoc : Nat := maxVA - 36 * pgSize

/-- The permissions of every page of a window. -/
def ringPerm : Nat := pteU ||| pteR ||| pteW ||| pteV

/-- Access to `ringbufs[i]`, which must lie in the table. -/
def slotAt (i : Int) : KernelM Slot :=
  if h : 0 ≤ i ∧ i.toNat < maxRingbufs then
    return ⟨i.toNat, h.2⟩
  else
    throw (.outOfBounds i)

/-- The first slot with a given name. -/
def findName (k : KernelState) (straddr : CString) : Option Slot :=
  (List.finRange maxRingbufs).find? fun i => strcmp straddr (k.ringbufs i).name = 0

/-- The first slot that is not in use. -/
def findFree (k : KernelState) : Option Slot :=
  (List.finRange maxRingbufs).find? fun i => (k.ringbufs i).refcount = 0

/-! ## Mapping a ring -/

/-- The first loop of `processSpace_mapper`: the first window from `start` on
whose first page is not a user page, trying at most `n` of them. -/
def findWindow (pagetable : Nat) : Nat → Nat → RamM (Option Nat)
  | 0, _ => return none
  | n + 1, start => do
    if (← walkaddr pagetable start) ≠ 0 then
      if maxMapLoc < start + spaceJump then
        return none
      else
        findWindow pagetable n (start + spaceJump)
    else
      return some start

/-- The undo loop of `processSpace_mapper`: it unmaps the page at `start` once for
every page that was mapped. -/
def undoMap (im : Image) (pagetable start : Nat) : Nat → RamM Unit
  | 0 => return ()
  | n + 1 => do
    uvmunmap im pagetable start 1 true
    undoMap im pagetable start n

/-- The data page that page `i` of a window shows: every data page appears twice. -/
def dataIndex (i : Nat) : Fin ringbufSize := ⟨i % ringbufSize, Nat.mod_lt i (by decide)⟩

/-- The allocation in the second loop of `processSpace_mapper`, which is not tested for
failure; otherwise `mem` stays the page allocated last. -/
def allocData (j : Slot) (newmap : Bool) (i mem : Nat) : KernelM Nat := do
  if i < ringbufSize ∧ newmap then
    let fresh ← onRam kalloc
    modify fun k => k.setSlot j fun b =>
      { b with bufPA := Function.update b.bufPA (dataIndex i) fresh }
    return fresh
  else
    return mem

/-- The second loop of `processSpace_mapper`, with `n` pages from page `i` on
left to map. -/
def mapRing (im : Image) (p : ProcId) (j : Slot) (newmap : Bool) (start : Nat) :
    Nat → Nat → Nat → KernelM Int
  | 0, _, _ => return 0
  | n + 1, i, mem => do
    let mem ← allocData j newmap i mem
    let k ← get
    let pagetable := (k.proc p).pagetable
    if (← onRam (mappages pagetable (start + i * pgSize) pgSize
        ((k.ringbufs j).bufPA (dataIndex i)) ringPerm)) ≠ 0 then
      onRam (undoMap im pagetable start i)
      if i < ringbufSize then
        onRam (kfree im mem)
      return -1
    else
      mapRing im p j newmap start n (i + 1) mem

/-- The allocation of the book page, not tested for failure either. -/
def allocBook (j : Slot) (newmap : Bool) : KernelM Unit := do
  if newmap then
    let fresh ← onRam kalloc
    modify fun k => k.setSlot j fun b => { b with book := fresh }

/-- Map a ring into the first free window of a process, with new pages if
`newmap` is set. -/
def processSpaceMapper (im : Image) (p : ProcId) (j : Slot) (newmap : Bool) : KernelM Int := do
  let k ← get
  let pagetable := (k.proc p).pagetable
  match ← onRam (findWindow pagetable 10 mapStart) with
  | none => return -1
  | some start =>
    modify fun k => k.setSlot j fun b => { b with vabuf := start }
    if (← mapRing im p j newmap start (2 * ringbufSize) 0 0) ≠ 0 then
      return -1
    else
      allocBook j newmap
      let k ← get
      if (← onRam (mappages pagetable (start + 2 * ringbufSize * pgSize) pgSize
          (k.ringbufs j).book ringPerm)) ≠ 0 then
        throw (.panic "map failed")
      else
        return 0

/-! ## Creating and closing -/

/-- The branch of `createbuf` that attaches to a ring; `false` if it fails. -/
def attachRing (im : Image) (p : ProcId) (j : Slot) (d : RingEnd) : KernelM Bool := do
  let k ← get
  if (k.ringbufs j).pidsRW d ≠ 0 ∨ (k.ringbufs j).refcount < 0 then
    return false
  else
    modify fun k => k.setSlot j fun b =>
      { b with
        pidsRW := Function.update b.pidsRW d (k.proc p).pid
        refcount := b.refcount + 1 }
    if (← processSpaceMapper im p j false) ≠ 0 then
      modify fun k => k.setSlot j fun b =>
        { b with pidsRW := Function.update b.pidsRW d 0, refcount := b.refcount - 1 }
      return false
    else
      return true

/-- The branch of `createbuf` that makes a ring; `false` if it fails.  The size
passed to `safestrcpy` is that of a pointer. -/
def makeRing (im : Image) (p : ProcId) (straddr : CString) (j : Slot) (d : RingEnd) :
    KernelM Bool := do
  modify fun k => k.setSlot j fun b =>
    { b with
      refcount := b.refcount + 1
      pidsRW := Function.update (Function.update b.pidsRW (1 - d) 0) d (k.proc p).pid
      name := straddr.safestrcpy 8 }
  if (← processSpaceMapper im p j true) ≠ 0 then
    modify fun k => k.setSlot j fun b =>
      { b with name := .empty, pidsRW := Function.update b.pidsRW d 0 }
    return false
  else
    return true

/-- The end of `createbuf`: hand out the window's address.  Whether the address could be
stored is not tested. -/
def publishRing (p : ProcId) (j : Slot) (retvaddr : Nat) : KernelM Unit := do
  let k ← get
  let _ ← onRam (copyout (k.proc p).pagetable retvaddr 0 (wordBytes (k.ringbufs j).vabuf))
  modify fun k => k.setProc p fun q => { q with validRingBuf := 1 }

/-- The end that a valid `opdesc` names. -/
def ringEndOf (opdesc : Int) : RingEnd := if opdesc = 0 then 0 else 1

/-- Attach the caller `p` to one end of a ring by name, making the ring if there is
none; the address of its window is stored at `retvaddr`. -/
def createbuf (im : Image) (p : ProcId) (straddr : CString) (opdesc : Int) (retvaddr : Nat) :
    KernelM Int := do
  if opdesc < 0 ∨ 1 < opdesc then
    return -1
  else
    let d := ringEndOf opdesc
    let k ← get
    let found : Int := ((findName k straddr).map fun i => (i.val : Int)).getD (-1)
    let exists_ : Int := if (findName k straddr).isSome then 0 else 1
    -- A ring found in slot 0 is not attached to: the source tests for a positive index.
    let index : Int :=
      if 0 < found then found else ((findFree k).map fun i => (i.val : Int)).getD found
    let j ← slotAt index
    let done ← if 0 < found then attachRing im p j d else makeRing im p straddr j d
    if done then
      publishRing p j retvaddr
      return exists_
    else
      return -1

/-- One of the unmapping loops of `closebuf`: `n` single pages from `d` on. -/
def unmapEach (im : Image) (pagetable : Nat) (doFree : Bool) : Nat → Nat → RamM Unit
  | 0, _ => return ()
  | n + 1, d => do
    uvmunmap im pagetable d 1 doFree
    unmapEach im pagetable doFree n (d + pgSize)

/-- Whether a process is listed in some slot, as `closebuf` recomputes it. -/
def pidRingValid (k : KernelState) (pid : Nat) : Bool :=
  (List.finRange maxRingbufs).any fun i =>
    (k.ringbufs i).pidsRW 0 = pid ∨ (k.ringbufs i).pidsRW 1 = pid

/-- What `closebuf` leaves in the slot of a ring that nobody uses any more. -/
def Ringbuf.cleared (b : Ringbuf) : Ringbuf :=
  { b with refcount := 0, name := .empty, pidsRW := fun _ => 0, vabuf := 0, book := 0 }

/-- The three unmapping loops of `closebuf` over the window at `d`. -/
def unmapRing (im : Image) (pagetable : Nat) (last : Bool) (d : Nat) : RamM Unit := do
  unmapEach im pagetable last ringbufSize d
  unmapEach im pagetable false ringbufSize (d + ringbufSize * pgSize)
  uvmunmap im pagetable (d + 2 * ringbufSize * pgSize) 1 last

/-- Detach the caller `p` from a ring.  The search for the name runs over more slots
than the table has, and the end `opdesc` is not used. -/
def closebuf (im : Image) (p : ProcId) (straddr : CString) (_opdesc : Int) : KernelM Int := do
  let k ← get
  match findName k straddr with
  | none => throw (.outOfBounds maxRingbufs)
  | some j =>
    let last : Bool := decide ((k.ringbufs j).refcount - 1 < 1)
    set (k.setSlot j fun b =>
      if last then b.cleared else { b with refcount := b.refcount - 1 })
    onRam (unmapRing im (k.proc p).pagetable last (k.ringbufs j).vabuf)
    modify fun k => k.setProc p fun q =>
      { q with validRingBuf := if pidRingValid k q.pid then 1 else 0 }
    return 0

/-- One test of `ringbufCleanup`: close an end under the name of its slot if the caller
`p` is listed there.  What `closebuf` returns is not used. -/
def cleanupEnd (im : Image) (p : ProcId) (i : Slot) (e : RingEnd) : KernelM Unit := do
  let k ← get
  if (k.ringbufs i).pidsRW e = (k.proc p).pid then
    let _ ← closebuf im p (k.ringbufs i).name e.val

/-- The loop of `ringbufCleanup` over the remaining slots. -/
def cleanupLoop (im : Image) (p : ProcId) : List Slot → KernelM Unit
  | [] => return ()
  | i :: rest => do
    cleanupEnd im p i 0
    cleanupEnd im p i 1
    cleanupLoop im p rest

/-- Close all ends of the caller `p`. -/
def ringbufCleanup (im : Image) (p : ProcId) : KernelM Int := do
  cleanupLoop im p (List.finRange maxRingbufs)
  return 0

end Kernel
end FastIpc
