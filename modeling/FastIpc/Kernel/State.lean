import FastIpc.Kernel.Strings
import FastIpc.Kernel.Vm
import Mathlib.Data.Fintype.Card
import Mathlib.Data.Fin.VecNotation

/-!
# Kernel state

The ring table of `kernel/ringbuf.c`, the process table of
`kernel/proc.h` and physical memory, and the string functions the ring table is
searched with.  Process fields that no modelled function reads (kernel stack, saved
context, open files, current directory, debugging name, sleep channel) are left out.
-/

namespace FastIpc
namespace Kernel

open Foundation FaultM

/-- The eight bytes of a 64-bit value. -/
def wordBytes (w : Nat) : List (BitVec 8) := (List.range 8).map (Memory.byteOf w)

/-! ## Tables -/

/-- Slots of the ring table, `MAX_RINGBUFS`. -/
abbrev maxRingbufs : Nat := 10

/-- Data pages of a ring, `RINGBUF_SIZE`. -/
abbrev ringbufSize : Nat := 16

/-- Slots of the process table, `NPROC`. -/
abbrev nproc : Nat := 64

/-- An index into the ring table. -/
abbrev Slot := Fin maxRingbufs

/-- The end of a ring an `opdesc` of 0 or 1 names. -/
abbrev RingEnd := Fin 2

/-- An index into the process table; a pointer to a `struct proc`. -/
abbrev ProcId := Fin nproc

/-- `struct ringbuf`; a null page address is `0`. -/
structure Ringbuf where
  refcount : Int
  name : CString
  pidsRW : RingEnd → Nat
  bufPA : Fin ringbufSize → Nat
  vabuf : Nat
  book : Nat

/-- A slot of the table at boot: all bytes zero. -/
def Ringbuf.zero : Ringbuf where
  refcount := 0
  name := .empty
  pidsRW _ := 0
  bufPA _ := 0
  vabuf := 0
  book := 0

/-- `enum procstate`. -/
inductive ProcState where
  | unused
  | used
  | sleeping
  | runnable
  | running
  | zombie
  deriving DecidableEq, Repr

/-- `struct proc`. -/
structure Proc where
  state : ProcState
  killed : Bool
  xstate : Int
  pid : Nat
  parent : Option ProcId
  sz : Nat
  pagetable : Nat
  trapframe : Nat
  validRingBuf : Int

/-- An entry of the process table at boot. -/
def Proc.zero : Proc where
  state := .unused
  killed := false
  xstate := 0
  pid := 0
  parent := none
  sz := 0
  pagetable := 0
  trapframe := 0
  validRingBuf := 0

/-- The kernel state the modelled calls work on. -/
structure KernelState where
  ram : Ram
  ringbufs : Slot → Ringbuf
  proc : ProcId → Proc
  nextpid : Nat
  initproc : Option ProcId

/-- Code that works on the kernel state. -/
abbrev KernelM := FaultM Fault KernelState

/-- Run code that only works on physical memory. -/
def onRam {α : Type} (x : RamM α) : KernelM α :=
  zoom KernelState.ram (fun r k => { k with ram := r }) x

theorem onRam_of_ok {α : Type} {x : RamM α} {k : KernelState} {a : α} {ram : Ram}
    (h : x k.ram = .ok (a, ram)) : onRam x k = .ok (a, { k with ram := ram }) :=
  zoom_of_ok h

theorem onRam_eq_ok {α : Type} {x : RamM α} {k k' : KernelState} {a : α} :
    onRam x k = .ok (a, k') ↔ ∃ ram, x k.ram = .ok (a, ram) ∧ k' = { k with ram := ram } :=
  zoom_eq_ok

theorem onRam_of_error {α : Type} {x : RamM α} {k : KernelState} {e : Fault}
    (h : x k.ram = .error e) : onRam x k = .error e := by
  simp [onRam, zoom, h]

namespace KernelState

/-- Change one slot of the ring table. -/
def setSlot (k : KernelState) (j : Slot) (f : Ringbuf → Ringbuf) : KernelState :=
  { k with ringbufs := Function.update k.ringbufs j (f (k.ringbufs j)) }

/-- Change one entry of the process table. -/
def setProc (k : KernelState) (p : ProcId) (f : Proc → Proc) : KernelState :=
  { k with proc := Function.update k.proc p (f (k.proc p)) }

variable (k : KernelState) (j : Slot) (p : ProcId) (f : Ringbuf → Ringbuf) (g : Proc → Proc)

@[simp]
theorem setSlot_ram : (k.setSlot j f).ram = k.ram := rfl

@[simp]
theorem setSlot_proc : (k.setSlot j f).proc = k.proc := rfl

@[simp]
theorem setSlot_same : (k.setSlot j f).ringbufs j = f (k.ringbufs j) := Function.update_self ..

@[simp]
theorem setSlot_ne {i : Slot} (h : i ≠ j) : (k.setSlot j f).ringbufs i = k.ringbufs i :=
  Function.update_of_ne h ..

theorem setSlot_setSlot (f' : Ringbuf → Ringbuf) :
    (k.setSlot j f).setSlot j f' = k.setSlot j fun b => f' (f b) := by
  simp [setSlot]

theorem setSlot_eq_self (h : f (k.ringbufs j) = k.ringbufs j) : k.setSlot j f = k := by
  rw [setSlot, h, Function.update_eq_self]

@[simp]
theorem setProc_ram : (k.setProc p g).ram = k.ram := rfl

@[simp]
theorem setProc_ringbufs : (k.setProc p g).ringbufs = k.ringbufs := rfl

@[simp]
theorem setProc_same : (k.setProc p g).proc p = g (k.proc p) := Function.update_self ..

@[simp]
theorem setProc_ne {q : ProcId} (h : q ≠ p) : (k.setProc p g).proc q = k.proc q :=
  Function.update_of_ne h ..

end KernelState

end Kernel
end FastIpc
