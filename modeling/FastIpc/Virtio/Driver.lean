import FastIpc.Foundation.CyclicQueue
import FastIpc.Foundation.FaultState
import FastIpc.Foundation.Run
import FastIpc.Foundation.Sleepers
import Mathlib.Data.List.FinRange

/-!
# The disk driver

The functions of `kernel/virtio_disk.c` that run after `virtio_disk_init`, called for any
number of buffers, and the device they talk to.  Driver code that runs with `vdisk_lock` held
is one step, from `acquire` or the return of `sleep` to the next `sleep` or
`release`.  Only the interrupt handler is cut at every round of its loop, because the device
takes no lock and may post a completion between two of them.

There is at most one call of `virtio_disk_rw` for a buffer at a time, so that a call is named
by its buffer.  For every descriptor the state also records how far the request whose chain starts
there has come; no code reads this record.
-/

namespace FastIpc
namespace Virtio

open Foundation
open Function (update)

/-- The descriptors, `NUM`. -/
abbrev num : Nat := 8

/-- The flag `VRING_DESC_F_NEXT`: the chain goes on. -/
def flagNext : BitVec 16 := 1

/-- The flag `VRING_DESC_F_WRITE`: the device writes. -/
def flagWrite : BitVec 16 := 2

/-- What a descriptor may point to, in the memory of a driver with buffers `B`. -/
inductive Addr (B : Type) where
  | null
  /-- `&disk.ops[i]`. -/
  | op (i : Fin num)
  /-- `b->data`. -/
  | data (b : B)
  /-- `&disk.info[i].status`. -/
  | status (i : Fin num)
  deriving DecidableEq

/-- `struct virtq_desc`. -/
structure Desc (B : Type) where
  addr : Addr B
  len : Nat
  flags : BitVec 16
  next : BitVec 16

/-- A descriptor that is not in use. -/
def Desc.zero {B : Type} : Desc B := ⟨.null, 0, 0, 0⟩

/-- `struct virtio_blk_req`; `write` is the type `VIRTIO_BLK_T_OUT`. -/
structure BlkReq where
  write : Bool
  reserved : BitVec 32
  sector : BitVec 64

/-- An element of `disk.info`. -/
structure Info (B : Type) where
  b : Option B
  status : BitVec 8

/-- `struct disk`, without its lock. -/
structure Disk (B : Type) where
  desc : Fin num → Desc B
  availIdx : BitVec 16
  availRing : Fin num → BitVec 16
  /-- `used->idx`, which the device counts up. -/
  usedEnd : BitVec 16
  /-- The fields `id` of `used->ring`. -/
  usedRing : Fin num → BitVec 32
  free : Fin num → Bool
  usedIdx : BitVec 16
  info : Fin num → Info B
  ops : Fin num → BlkReq

/-- The three descriptors of a request. -/
structure Triple where
  head : Fin num
  data : Fin num
  status : Fin num
  deriving DecidableEq

/-- The descriptors as a list. -/
def Triple.toList (t : Triple) : List (Fin num) := [t.head, t.data, t.status]

/-- Where the call for a buffer is. -/
inductive Phase where
  | idle
  /-- Asleep because there were no descriptors, or on its way to the next attempt. -/
  | allocating (write : Bool) (sector : BitVec 64)
  /-- Asleep until the request is done, or on its way to look again. -/
  | waiting (t : Triple)
  deriving DecidableEq

/-- The addresses that calls sleep on: `&disk.free[0]` and the buffers. -/
inductive Chan (B : Type) where
  | free
  | buf (b : B)
  deriving DecidableEq

/-- How far a request has come since its head was put into the avail ring. -/
inductive Stage where
  | queued
  | taken
  | posted
  | processed
  deriving DecidableEq

/-- What the device remembers of a chain: its head and where the status goes. -/
structure Chain (B : Type) where
  head : BitVec 16
  status : Addr B

/-- The driver, the calls and the device. -/
structure State (B : Type) where
  disk : Disk B
  /-- `b->disk`. -/
  busy : B → Bool
  call : B → Phase
  asleep : B → Option (Chan B)
  /-- The interrupt handler holds the lock. -/
  inIntr : Bool
  /-- How far the device has read the avail ring. -/
  lastAvail : BitVec 16
  /-- The chains the device works on. -/
  pending : List (Chain B)
  stage : Fin num → Stage

/-- The state that `virtio_disk_init` leaves behind. -/
def State.init {B : Type} : State B where
  disk :=
    { desc := fun _ => .zero
      availIdx := 0
      availRing := fun _ => 0
      usedEnd := 0
      usedRing := fun _ => 0
      free := fun _ => true
      usedIdx := 0
      info := fun _ => ⟨none, 0⟩
      ops := fun _ => ⟨false, 0, 0⟩ }
  busy _ := false
  call _ := .idle
  asleep _ := none
  inIntr := false
  lastAvail := 0
  pending := []
  stage _ := .processed

/-- What must not happen. -/
inductive Fault where
  | panic (message : String)
  /-- An access outside an array of the driver, or through a null pointer. -/
  | badAccess
  /-- The device finds a chain that is not one of a disk request. -/
  | badChain
  deriving DecidableEq, Repr

abbrev DiskM (B : Type) := FaultM Fault (State B)

variable {B : Type} [DecidableEq B]

namespace State

/-- Change the driver's part. -/
def setDisk (s : State B) (f : Disk B → Disk B) : State B := { s with disk := f s.disk }

/-- `wakeup`. -/
def wakeup (s : State B) (chan : Chan B) : State B := { s with asleep := wakeAll s.asleep chan }

/-- `sleep` of the call for a buffer. -/
def sleep (s : State B) (b : B) (chan : Chan B) (phase : Phase) : State B :=
  { s with
    asleep := update s.asleep b (some chan)
    call := update s.call b phase }

/-- Mark a descriptor as not free. -/
def claim (s : State B) (i : Fin num) : State B :=
  s.setDisk fun d => { d with free := update d.free i false }

/-- Clear a descriptor, mark it as free and wake the calls that wait for one. -/
def release (s : State B) (i : Fin num) : State B :=
  (s.setDisk fun d =>
    { d with
      desc := update d.desc i .zero
      free := update d.free i true }).wakeup .free

/-- Record how far a request has come. -/
def reach (s : State B) (i : Fin num) (stage : Stage) : State B :=
  { s with stage := update s.stage i stage }

end State

/-! ## Descriptors -/

/-- `alloc_desc`; `none` stands for -1. -/
def allocDesc : DiskM B (Option (Fin num)) := do
  let s ← get
  match (List.finRange num).find? fun i => s.disk.free i with
  | none => return none
  | some i =>
    set (s.claim i)
    return some i

/-- `free_desc`. -/
def freeDesc (i : Nat) : DiskM B Unit := do
  if h : i < num then
    let s ← get
    if s.disk.free ⟨i, h⟩ then
      throw (.panic "free_desc 2")
    else
      set (s.release ⟨i, h⟩)
  else
    throw (.panic "free_desc 1")

/-- `free_chain`.  Every round frees a descriptor that was not free, so that there are no more
rounds than descriptors. -/
def freeChain : Nat → Nat → DiskM B Unit
  | 0, _ => throw (.panic "free_desc 2")
  | rounds + 1, i => do
    let s ← get
    if h : i < num then
      let flags := (s.disk.desc ⟨i, h⟩).flags
      let next := (s.disk.desc ⟨i, h⟩).next
      freeDesc i
      if flags &&& flagNext ≠ 0 then
        freeChain rounds next.toNat
    else
      freeDesc i

/-- `alloc3_desc`, its loop written out; `none` stands for -1. -/
def alloc3Desc : DiskM B (Option Triple) := do
  match ← allocDesc with
  | none => return none
  | some i =>
    match ← allocDesc with
    | none =>
      freeDesc i
      return none
    | some j =>
      match ← allocDesc with
      | none =>
        freeDesc i
        freeDesc j
        return none
      | some k => return some ⟨i, j, k⟩

/-! ## Requests -/

/-- The descriptors of a request, as `virtio_disk_rw` fills them in. -/
def formatChain (b : B) (write : Bool) (t : Triple) (desc : Fin num → Desc B) :
    Fin num → Desc B :=
  let desc := update desc t.head ⟨.op t.head, 16, flagNext, BitVec.ofNat 16 t.data⟩
  let desc := update desc t.data
    ⟨.data b, 1024, (if write then 0 else flagWrite) ||| flagNext, BitVec.ofNat 16 t.status⟩
  update desc t.status ⟨.status t.head, 1, flagWrite, 0⟩

/-- The stores of `virtio_disk_rw` that prepare a request. -/
def format (b : B) (write : Bool) (sector : BitVec 64) (t : Triple) (s : State B) : State B :=
  { s with
    disk :=
      { s.disk with
        ops := update s.disk.ops t.head ⟨write, 0, sector⟩
        desc := formatChain b write t s.disk.desc
        info := update s.disk.info t.head ⟨some b, 0xff⟩ }
    busy := update s.busy b true }

/-- The stores that tell the device. -/
def publish (i : Fin num) (s : State B) : State B :=
  (s.setDisk fun d =>
    { d with
      availRing := update d.availRing (CyclicQueue.cell num d.availIdx) (BitVec.ofNat 16 i)
      availIdx := d.availIdx + 1 }).reach i .queued

/-- The end of `virtio_disk_rw`, from the test of `b->disk` on. -/
def waitDone (b : B) (t : Triple) : DiskM B Unit := do
  let s ← get
  if s.busy b then
    set (s.sleep b (.buf b) (.waiting t))
  else
    set (s.setDisk fun d =>
      { d with info := update d.info t.head { d.info t.head with b := none } })
    freeChain num t.head
    modify fun s => { s with call := update s.call b .idle }

/-- `virtio_disk_rw`, from an attempt to allocate on. -/
def tryStart (b : B) (write : Bool) (sector : BitVec 64) : DiskM B Unit := do
  match ← alloc3Desc with
  | none => modify fun s => s.sleep b .free (.allocating write sector)
  | some t =>
    modify fun s => publish t.head (format b write sector t s)
    waitDone b t

/-- `sector = b->blockno * (BSIZE / 512)`, multiplied as 32-bit numbers. -/
def sectorOf (blockno : BitVec 32) : BitVec 64 := (blockno * 2).setWidth 64

/-- One round of the loop of `virtio_disk_intr`, or its end. -/
def intrRound : DiskM B Unit := do
  let s ← get
  if s.disk.usedIdx = s.disk.usedEnd then
    set { s with inIntr := false }
  else
    let id := (s.disk.usedRing (CyclicQueue.cell num s.disk.usedIdx)).toNat
    if h : id < num then
      if (s.disk.info ⟨id, h⟩).status ≠ 0 then
        throw (.panic "virtio_disk_intr status")
      else
        match (s.disk.info ⟨id, h⟩).b with
        | none => throw .badAccess
        | some b =>
          set (((({ s with busy := update s.busy b false }).wakeup (.buf b)).setDisk
            fun d => { d with usedIdx := d.usedIdx + 1 }).reach ⟨id, h⟩ .processed)
    else
      throw .badAccess

/-! ## The device -/

/-- The chain that starts at a descriptor, if it is one of a disk request. -/
def chainAt (desc : Fin num → Desc B) (head : BitVec 16) : Option (Chain B) :=
  if h : head.toNat < num then
    let d := desc ⟨head.toNat, h⟩
    if h' : d.flags &&& flagNext ≠ 0 ∧ d.next.toNat < num then
      let d' := desc ⟨d.next.toNat, h'.2⟩
      if h'' : d'.flags &&& flagNext ≠ 0 ∧ d'.next.toNat < num then
        let d'' := desc ⟨d'.next.toNat, h''.2⟩
        if d''.flags &&& flagNext = 0 then some ⟨head, d''.addr⟩ else none
      else none
    else none
  else none

/-- The device takes the next head from the avail ring. -/
def deviceTake : DiskM B Unit := do
  let s ← get
  let head := s.disk.availRing (CyclicQueue.cell num s.lastAvail)
  match chainAt s.disk.desc head with
  | none => throw .badChain
  | some c =>
    set (({ s with lastAvail := s.lastAvail + 1, pending := s.pending ++ [c] }).reach
      (Fin.ofNat num head.toNat) .taken)

/-- The device completes a chain with status 0 and posts its head in the used ring. -/
def devicePost (c : Chain B) (rest : List (Chain B)) : DiskM B Unit := do
  let s ← get
  match c.status with
  | .status i =>
    set ((({ s with pending := rest }).setDisk fun d =>
      { d with
        info := update d.info i { d.info i with status := 0 }
        usedRing := update d.usedRing (CyclicQueue.cell num d.usedEnd)
          (c.head.setWidth 32)
        usedEnd := d.usedEnd + 1 }).reach (Fin.ofNat num c.head.toNat) .posted)
  | _ => throw .badChain

/-! ## Steps -/

/-- What can happen next. -/
inductive Event (B : Type) where
  /-- A call `virtio_disk_rw(b, write)` begins. -/
  | rw (b : B) (write : Bool) (blockno : BitVec 32)
  /-- A call that does not sleep any more runs on. -/
  | resume (b : B)
  /-- `kill` makes a sleeping call run on. -/
  | kill (b : B)
  /-- `virtio_disk_intr` begins. -/
  | intr
  /-- It runs one round of its loop. -/
  | intrRound
  /-- The device takes a request. -/
  | take
  /-- The device completes the request at a place of its list. -/
  | post (n : Nat)

/-- The effect of an event; `none` if it cannot happen. -/
def perform (s : State B) : Event B → Option (Except Fault (Unit × State B))
  | .rw b write blockno =>
    if s.inIntr = false ∧ s.call b = .idle then
      some (tryStart b write (sectorOf blockno) s)
    else none
  | .resume b =>
    if s.inIntr = false ∧ s.asleep b = none then
      match s.call b with
      | .idle => none
      | .allocating write sector => some (tryStart b write sector s)
      | .waiting t => some (waitDone b t s)
    else none
  | .kill b => some (.ok ((), { s with asleep := update s.asleep b none }))
  | .intr => if s.inIntr = false then some (.ok ((), { s with inIntr := true })) else none
  | .intrRound => if s.inIntr = true then some (intrRound s) else none
  | .take => if s.lastAvail ≠ s.disk.availIdx then some (deviceTake s) else none
  | .post n =>
    match s.pending[n]? with
    | none => none
    | some c => some (devicePost c (s.pending.eraseIdx n) s)

/-- The state after an event. -/
def step (s : State B) (ev : Event B) : Option (State B) :=
  match perform s ev with
  | some (.ok ((), t)) => some t
  | _ => none

end Virtio
end FastIpc
